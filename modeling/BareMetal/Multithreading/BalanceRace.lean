import BareMetal.CS.Mutex
import BareMetal.CS.StringCopy
import BareMetal.CS.TextBuffer

/-!
# The deposits of `multithreading/balance_race.c` and `pthread/bank_account.c`

Every thread adds its amount to the balance of one account. It loads the balance, adds and
stores the sum, and it holds the mutex meanwhile. `balance_race.c` starts ten thousand threads
with the amount 1, `bank_account.c` two with amounts of their own; here there may be any
number of them, with any amounts.

`create_owner` of `balance_race.c` keeps the length of a name in one byte and puts the
terminator behind the block that it has allocated.

## Main results

* `createOwner_eq` — `create_owner` ends the program or writes outside its block
* `deposits_never_lost` — whenever the mutex is free, the balance is the sum of the deposits made
-/

namespace BareMetal.BalanceRace

open CS Transition Mutex

/-! ### The owner of an account -/

/-- `FULLNAME_MAX_SIZE`. -/
def fullnameMaxSize : UInt8 := 32

/-- `create_owner`, with the block of the name. -/
def createOwner (junk : ℕ → Int8) (fullname : TextBuffer) : Outcome CString := do
  let length ← StringCopy.strlen fullname.cells
  let fullnameSize : UInt8 := UInt8.ofNat (length + 1)
  if fullnameSize > fullnameMaxSize then .error (.exit 1 "Invalid account owner fullname\n")
  else do
    let cells ← StringCopy.strncpy (Cells.fresh junk fullnameSize.toNat) 0 fullname.cells
      fullnameSize.toNat
    Cells.store cells fullnameSize.toNat 0

/-- No name has an owner: a name is refused for the length that is left of it in one byte, or
the terminator goes behind the block. -/
theorem createOwner_eq (junk : ℕ → Int8) (fullname : TextBuffer) :
    createOwner junk fullname =
      if 32 < (fullname.chars.length + 1) % 256 then
        .error (.exit 1 "Invalid account owner fullname\n")
      else .error (.outOfBounds (((fullname.chars.length + 1) % 256 : ℕ) : ℤ)) := by
  have hlength : StringCopy.strlen fullname.cells = .ok fullname.chars.length :=
    StringCopy.strlen_append fullname.nul_notMem _
  have hsize : (UInt8.ofNat (fullname.chars.length + 1)).toNat =
      (fullname.chars.length + 1) % 256 :=
    UInt8.toNat_ofNat'
  have hlarge : UInt8.ofNat (fullname.chars.length + 1) > fullnameMaxSize ↔
      32 < (fullname.chars.length + 1) % 256 := by
    rw [← hsize]
    exact UInt8.lt_iff_toNat_lt
  rw [createOwner, hlength, Outcome.ok_bind]
  simp only [hlarge]
  refine if_congr Iff.rfl rfl ?_
  have hcopy := StringCopy.strncpy_all (n := (fullname.chars.length + 1) % 256)
    fullname.nul_notMem (Cells.length_fresh junk _) fullname.rest
  rw [hsize]
  rw [TextBuffer.cells, hcopy, Outcome.ok_bind, Cells.store, if_neg]
  rw [StringCopy.length_padded]
  omega

/-! ### Deposits -/

/-- `deposit` under the mutex: the balance is loaded, the amount added, the sum stored. The
memory is the balance, and there is one register. -/
def deposit (amount : UInt32) : Body UInt32 UInt32 where
  actions :=
    [fun s => .ok (s.1, s.1),
      fun s => .ok (s.1, s.2 + amount),
      fun s => .ok (s.2, s.2)]
  registers := 0

variable {ι : Type*} {amount : ι → UInt32}

theorem run_deposit (amount balance : UInt32) :
    (deposit amount).run balance = .ok (balance + amount) := rfl

/-- Deposits one after another. The balance has 32 bits. -/
theorem serial_deposit (amount : ι → UInt32) (balance : UInt32) (order : List ι) :
    ∃ balance', serial (fun i => deposit (amount i)) balance order = .ok balance' ∧
      balance'.toNat = (balance.toNat + (order.map fun i => (amount i).toNat).sum) % 2 ^ 32 := by
  induction order generalizing balance with
  | nil => exact ⟨balance, rfl, (Nat.mod_eq_of_lt balance.toNat_lt).symm⟩
  | cons i rest ih =>
    obtain ⟨balance', hserial, hsum⟩ := ih (balance + amount i)
    refine ⟨balance', ?_, ?_⟩
    · rw [serial, List.foldlM_cons, run_deposit]
      exact hserial
    · rw [hsum, UInt32.toNat_add, Nat.mod_add_mod, List.map_cons, List.sum_cons, Nat.add_assoc]

variable [Fintype ι] [DecidableEq ι]

/-- The amounts of the threads that have returned. -/
def deposited (amount : ι → UInt32) (world : World ι UInt32 UInt32) : ℕ :=
  ∑ i with (world.threads i).isBehind, (amount i).toNat

/-- The balance when the mutex is free. -/
theorem balance_eq {balance balance' : UInt32} {world : World ι UInt32 UInt32}
    {order : List ι}
    (h : Serialized (fun i => deposit (amount i)) balance world order balance') :
    balance'.toNat = (balance.toNat + deposited amount world) % 2 ^ 32 := by
  obtain ⟨made, hmade, hsum⟩ := serial_deposit amount balance order
  cases h.serial_eq.symm.trans hmade
  rw [hsum, deposited, ← h.toFinset_eq, List.sum_toFinset _ h.nodup]

/-- **No deposit is lost**, however the loads and stores of the threads are interleaved. Every
run comes to an end in which all threads have returned. -/
theorem deposits_never_lost (amount : ι → UInt32) (balance : UInt32) :
    (∀ trace world, Run (system (fun i => deposit (amount i)) balance) trace world →
      (∀ i j, (world.threads i).isInside → (world.threads j).isInside → i = j) ∧
      (world.mutex = none →
        world.memory.toNat = (balance.toNat + deposited amount world) % 2 ^ 32)) ∧
    (system (fun i => deposit (amount i)) balance).Lowers (fun _ => True)
      (World.left fun i => deposit (amount i)) ∧
    (system (fun i => deposit (amount i)) balance).NeverHangs (fun _ => True) fun world =>
      (∀ i, (world.threads i).isBehind) ∧
        world.memory.toNat = (balance.toNat + ∑ i, (amount i).toNat) % 2 ^ 32 := by
  refine ⟨fun trace world hrun => ⟨fun i j => exclusive hrun, fun hfree => ?_⟩,
    lowers_left _ balance, fun trace world hrun hrest => ?_⟩
  · obtain ⟨order, memory, h⟩ := serialized hrun
    rw [h.free hfree]
    exact balance_eq h
  · obtain ⟨order, memory, h⟩ := serialized hrun
    rcases h.atRest hrest with ⟨hfree, hall⟩ | ⟨i, -, hstops⟩
    · have hbehind : ∀ i, (world.threads i).isBehind := fun i => h.isBehind_iff.mpr (hall i)
      refine ⟨hbehind, ?_⟩
      rw [h.free hfree, balance_eq h, deposited, Finset.filter_true_of_mem]
      exact fun i _ => hbehind i
    · exact absurd (run_deposit (amount i) memory) (hstops _)

end BareMetal.BalanceRace
