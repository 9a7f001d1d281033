import BareMetal.Multithreading.Banking.Basic

/-!
# The bank stands for its ledger

## Main results

* `Represents.step` — a call that returns does to the bank what it does to the ledger
* `faithful` — the searches, the lists of accounts and the deposits of a bank are those
  of the ledger of its calls
-/

namespace BareMetal.Banking

open CS Transition LinkedList

/-- The branches of the ledger with the index `i`. -/
def bucket (ledger : Ledger) (i : Fin bankBranchCapacity) : List (ℕ × CString) :=
  ledger.branches.filter fun branch =>
    branchIdx branch.2 bankBranchCapacity = .ok (UInt8.ofNat i)

/-- The branch with the given ends, as its cell holds it. -/
def cell (ends : ℕ → Ends) (branch : ℕ × CString) : ℕ × Branch :=
  (branch.1, ⟨branch.2, ends branch.1⟩)

/-- Accounts are numbered from one, modulo `2 ^ 32`. -/
def Ledger.Numbered (ledger : Ledger) : Prop :=
  ∀ b m a account, (ledger.accounts b)[m]? = some (a, account) → account.id = UInt32.ofNat (m + 1)

/-- The chains hold the branches of their buckets, with the ends of their accounts. -/
structure Represents (bank : Bank) (ends : ℕ → Ends) (ledger : Ledger) : Prop where
  capacity : bank.capacity = UInt8.ofNat bankBranchCapacity
  hashed : ∀ branch ∈ ledger.branches, ∃ i : Fin bankBranchCapacity,
    branchIdx branch.2 bankBranchCapacity = .ok (UInt8.ofNat i)
  chains : Chains bank.branchHeap bank.branches fun i => (bucket ledger i).map (cell ends)
  accounts : Lists bank.accountHeap ends ledger.accounts
  opened : ∀ b, (∀ branch ∈ ledger.branches, branch.1 ≠ b) → ledger.accounts b = []
  numbered : ledger.Numbered
  bounded : bank.accountHeap.Bounded

variable {bank bank' : Bank} {ends : ℕ → Ends} {ledger : Ledger}
  {branchId branchName customerName : CString} {a b fuel : ℕ} {idx : UInt8}
  {i : Fin bankBranchCapacity}

theorem represents_initBank : Represents initBank (fun _ => ⟨none, none⟩) ⟨[], fun _ => []⟩ where
  capacity := rfl
  hashed := fun _ hmem => absurd hmem List.not_mem_nil
  chains := chains_nil _
  accounts := lists_nil _
  opened := fun _ _ => rfl
  numbered := fun _ _ _ _ hm => nomatch hm
  bounded := ⟨0, fun _ _ => rfl⟩

/-! ### Searches -/

/-- The first branch with an id is the first one in its bucket. -/
theorem find_bucket (hidx : branchIdx branchId bankBranchCapacity = .ok (UInt8.ofNat i)) :
    LinkedList.find (fun branch => branch.branchId == branchId)
      ((bucket ledger i).map (cell ends)) = ledger.findBranch branchId := by
  unfold bucket Ledger.findBranch LinkedList.find
  -- a branch with the id is in the bucket
  have hbelongs : ∀ branch : ℕ × CString, (branch.2 == branchId) =
      (decide (branchIdx branch.2 bankBranchCapacity = .ok (UInt8.ofNat i)) &&
        (cell ends branch).2.branchId == branchId) := by
    intro branch
    by_cases heq : branch.2 = branchId
    · simpa [cell, heq] using hidx
    · simp [cell, heq]
  rw [find?_bucket hbelongs, Option.map_map]
  rfl

theorem Represents.exists_branch (h : Represents bank ends ledger)
    (hb : (b, branchName) ∈ ledger.branches) :
    ∃ next, bank.branchHeap b = some ⟨⟨branchName, ends b⟩, next⟩ := by
  obtain ⟨i, hi⟩ := h.hashed _ hb
  refine (h.chains.holds i).chain.exists_next (List.mem_map.mpr ⟨(b, branchName), ?_, rfl⟩)
  exact List.mem_filter.mpr ⟨hb, by simpa using hi⟩

/-- `find` with an index that names a bucket. -/
theorem Represents.find (h : Represents bank ends ledger)
    (hidx : branchIdx branchId bankBranchCapacity = .ok idx) (hi : idx.toNat = i) :
    Returns (find bank branchId) (ledger.findBranch branchId) := by
  have hofNat : idx = UInt8.ofNat i := by
    rw [← hi, UInt8.ofNat_toNat]
  have hbucket : LinkedList.find (fun branch => branch.branchId == branchId)
      ((bucket ledger i).map (cell ends)) = ledger.findBranch branchId :=
    find_bucket (hofNat ▸ hidx)
  rw [← hbucket]
  have hseek := h.chains.seek i fun branch => branch.branchId == branchId
  have hchain := (h.chains.holds i).chain
  have hhead := h.chains.head_eq i
  generalize (bucket ledger i).map (cell ends) = nodes at hseek hchain hhead ⊢
  rw [hhead] at hseek
  cases nodes with
  | nil =>
    refine .of_eq fun fuel => ?_
    simp only [Banking.find, hidx, Outcome.ok_bind, hi, Block.load_natCast, hhead, first_nil]
    rfl
  | cons node rest =>
    obtain ⟨first, branch⟩ := node
    have hfind : Banking.find bank branchId = fun fuel =>
        if branch.branchId = branchId then .ok (some first)
        else
          seek bank.branchHeap (fun branch => branch.branchId == branchId) (some first) fuel := by
      funext fuel
      simp only [Banking.find, hidx, Outcome.ok_bind, hi, Block.load_natCast, hhead, first_cons,
        Heap.load_some hchain.1]
    rw [hfind]
    by_cases heq : branch.branchId = branchId
    · have hfirst : LinkedList.find (fun branch => branch.branchId == branchId)
          ((first, branch) :: rest) = some first := by
        simp [LinkedList.find, heq]
      rw [hfirst]
      exact .of_eq fun _ => if_pos heq
    · simp only [if_neg heq]
      exact hseek

theorem Represents.find_eq_of_ok (h : Represents bank ends ledger) {found : Option ℕ}
    (hok : Banking.find bank branchId fuel = .ok found) : found = ledger.findBranch branchId := by
  obtain ⟨idx, hidx, hrest⟩ := Outcome.bind_eq_ok.mp hok
  obtain ⟨bucket, hload, -⟩ := Outcome.bind_eq_ok.mp hrest
  obtain ⟨i, hi, -⟩ := Block.exists_of_load hload
  exact (h.find hidx (Int.ofNat.inj hi)).eq_of_ok hok

/-- The branch that is found, among the branches. -/
theorem Ledger.mem_of_findBranch (hb : ledger.findBranch branchId = some b) :
    (b, branchId) ∈ ledger.branches := by
  obtain ⟨name, hname, hmem⟩ := find_eq_some hb
  have heq : name = branchId := by simpa using List.find?_some hname
  rwa [heq] at hmem

theorem Represents.findCustomer_of_find (h : Represents bank ends ledger)
    (hb : ledger.findBranch branchId = some b)
    (hfind : Returns (Banking.find bank branchId) (some b)) :
    Returns (findCustomer bank branchId customerName) (ledger.findAccount customerName b) := by
  obtain ⟨next, hcell⟩ := h.exists_branch (Ledger.mem_of_findBranch hb)
  have hholds := h.accounts.holds b
  have hseek := hholds.chain.seek fun account => account.customer == customerName
  rw [← hholds.head_eq] at hseek
  unfold Banking.findCustomer
  refine hfind.bind ?_
  simp only [Heap.load_some hcell, Outcome.ok_bind]
  exact hseek

theorem Represents.findCustomer_of_ok (h : Represents bank ends ledger) {found : Option ℕ}
    (hok : findCustomer bank branchId customerName fuel = .ok found) :
    ∃ b, ledger.findBranch branchId = some b ∧ found = ledger.findAccount customerName b := by
  obtain ⟨branch, hbranch, hrest⟩ := Outcome.bind_eq_ok.mp hok
  have hfind := h.find_eq_of_ok hbranch
  cases branch with
  | none => cases hrest
  | some b =>
    refine ⟨b, hfind.symm, ?_⟩
    obtain ⟨next, hcell⟩ := h.exists_branch (Ledger.mem_of_findBranch hfind.symm)
    dsimp only at hrest
    rw [Heap.load_some hcell, Outcome.ok_bind] at hrest
    have hholds := h.accounts.holds b
    have hseek := hholds.chain.seek fun account => account.customer == customerName
    rw [← hholds.head_eq] at hseek
    exact hseek.eq_of_ok hrest

/-! ### Calls -/

/-- A new branch goes to the end of its bucket. -/
theorem bucket_addBranch (newBranch : ℕ)
    (hidx : branchIdx branchName bankBranchCapacity = .ok (UInt8.ofNat i)) :
    (fun j => (bucket (ledger.addBranch branchName newBranch) j).map (cell ends)) =
      Function.update (fun j => (bucket ledger j).map (cell ends)) i
        ((bucket ledger i).map (cell ends) ++ [cell ends (newBranch, branchName)]) := by
  funext j
  simp only [bucket, Ledger.addBranch, List.filter_append, List.map_append]
  rcases eq_or_ne j i with rfl | hne
  · rw [Function.update_self, List.filter_cons_of_pos (by simpa using hidx)]
    rfl
  · have hother : ¬ branchIdx branchName bankBranchCapacity = .ok (UInt8.ofNat j) := by
      rw [hidx, Except.ok.injEq, ofNat_inj_of_le (by decide)]
      exact hne.symm
    rw [Function.update_of_ne hne, List.filter_cons_of_neg (by simpa using hother)]
    exact List.append_nil _

/-- A branch at a free address, with a name whose index names a bucket. -/
theorem Represents.addBranch (h : Represents bank ends ledger) (hfree : bank.branchHeap b = none)
    (hidx : branchIdx branchName bankBranchCapacity = .ok idx) (hi : idx.toNat = i) :
    ∃ bank', Returns (Banking.addBranch bank b branchName) bank' ∧
      bank'.accountHeap = bank.accountHeap ∧
      Represents bank' ends (ledger.addBranch branchName b) := by
  have hofNat : idx = UInt8.ofNat i := by
    rw [← hi, UInt8.ofNat_toNat]
  have hnew : ∀ branch ∈ ledger.branches, branch.1 ≠ b := by
    rintro ⟨b', name⟩ hmem rfl
    obtain ⟨next, hcell⟩ := h.exists_branch hmem
    cases hcell.symm.trans hfree
  -- no account was opened at a branch that did not exist
  have hends : ends b = ⟨none, none⟩ := by
    have hholds := h.accounts.holds b
    rw [h.opened b hnew] at hholds
    exact congrArg₂ Ends.mk hholds.head_eq hholds.tail_eq
  obtain ⟨heap', head', hlink, hchains, -⟩ := h.chains.insertLast i hfree
    ⟨branchName, ⟨none, none⟩⟩
  have hcall : Banking.addBranch bank b branchName = fun fuel =>
      linkLast (bank.branchHeap.alloc b ⟨branchName, ⟨none, none⟩⟩) (bank.branches i) b fuel >>=
        fun x => .ok { bank with
          branches := Function.update bank.branches i x.2
          branchCount := bank.branchCount + 1
          branchHeap := x.1 } := by
    funext fuel
    have hcapacity : ((bank.capacity.toNat : ℕ) : ℤ) = bankBranchCapacity := by
      rw [h.capacity]
      rfl
    rw [Banking.addBranch, hcapacity, hidx, Outcome.ok_bind, hi, Block.load_natCast,
      Outcome.ok_bind]
    simp only [Block.store_natCast, Outcome.ok_bind]
  refine ⟨{ bank with
    branches := Function.update bank.branches i head'
    branchCount := bank.branchCount + 1
    branchHeap := heap' }, hcall ▸ hlink.bind (.of_eq fun _ => rfl), rfl, ?_⟩
  exact
    { capacity := h.capacity
      hashed := by
        intro branch hmem
        rcases List.mem_append.mp hmem with hold | hlast
        · exact h.hashed branch hold
        · cases List.mem_singleton.mp hlast
          exact ⟨i, hofNat ▸ hidx⟩
      chains := by
        rw [bucket_addBranch b (hofNat ▸ hidx), cell, hends]
        exact hchains
      accounts := h.accounts
      opened := fun b' hb' => h.opened b' fun branch hmem =>
        hb' branch (List.mem_append_left _ hmem)
      numbered := h.numbered
      bounded := h.bounded }

/-- The id that `open_account` takes. -/
theorem Represents.nextId (h : Represents bank ends ledger) (b : ℕ) :
    Banking.nextId bank (ends b) = .ok (UInt32.ofNat ((ledger.accounts b).length + 1)) := by
  have hholds := h.accounts.holds b
  have hnumbered := h.numbered b
  rcases List.eq_nil_or_concat (ledger.accounts b) with hnil | ⟨xs, ⟨l, w⟩, hconcat⟩
  · rw [hnil] at hholds ⊢
    have hhead : (ends b).head = none := hholds.head_eq
    rw [Banking.nextId, hhead]
    rfl
  · rw [List.concat_eq_append] at hconcat
    rw [hconcat] at hholds hnumbered ⊢
    obtain ⟨first, hfirst⟩ : ∃ first, (ends b).head = some first := by
      rw [← Option.ne_none_iff_exists', hholds.head_eq, Ne, first_eq_none_iff]
      simp
    have htail : (ends b).tail = some l := by
      rw [hholds.tail_eq, addresses_concat, List.getLast?_concat]
    have hid := hnumbered xs.length l w List.getElem?_concat_length
    rw [Banking.nextId, hfirst, htail]
    simp only [Heap.load_some hholds.chain.get, Outcome.ok_bind, hid, List.length_append,
      List.length_singleton, UInt32.ofNat_add]
    rfl

/-- The chains after the ends of one branch have changed. -/
theorem Represents.cell_update (h : Represents bank ends ledger)
    (hb : (b, branchName) ∈ ledger.branches) (ends' : Ends) (i : Fin bankBranchCapacity) :
    (bucket ledger i).map (cell (Function.update ends b ends')) =
      setAt b ⟨branchName, ends'⟩ ((bucket ledger i).map (cell ends)) := by
  unfold setAt
  rw [List.map_map]
  refine List.map_congr_left fun branch hmem => ?_
  obtain ⟨b', name⟩ := branch
  rcases eq_or_ne b' b with rfl | hne
  · -- the address determines the name
    obtain ⟨next, hcell⟩ := h.exists_branch hb
    obtain ⟨next', hcell'⟩ := h.exists_branch (List.mem_of_mem_filter hmem)
    cases hcell.symm.trans hcell'
    simp [cell]
  · simp [cell, hne]

theorem Ledger.Numbered.openAccount (h : ledger.Numbered) (customerName : CString) (a b : ℕ)
    (isPremium : Bool) : (ledger.openAccount customerName a b isPremium).Numbered := by
  intro b' m a' account hm
  simp only [Ledger.openAccount] at hm
  rcases eq_or_ne b' b with rfl | hne
  · rw [Function.update_self, List.getElem?_append] at hm
    split_ifs at hm with hlt
    · exact h b' m a' account hm
    · -- the only index of the new account is its number
      have hlen : m = (ledger.accounts b').length := by
        have hbound := (List.getElem?_eq_some_iff.mp hm).1
        rw [List.length_singleton] at hbound
        omega
      rw [hlen, Nat.sub_self, List.getElem?_cons_zero] at hm
      cases hm
      rw [hlen]
      unfold newAccount
      split_ifs <;> rfl
  · rw [Function.update_of_ne hne] at hm
    exact h b' m a' account hm

theorem Ledger.Numbered.deposit (h : ledger.Numbered) (a : ℕ) (amt : UInt32) :
    (ledger.deposit a amt).Numbered := by
  intro b m a' account hm
  simp only [Ledger.deposit, List.getElem?_map, Option.map_eq_some_iff] at hm
  obtain ⟨⟨a₀, account₀⟩, hm₀, heq⟩ := hm
  have hid := h b m a₀ account₀ hm₀
  split_ifs at heq
  · cases heq
    exact hid
  · cases heq
    exact hid

/-- A new account of a branch. -/
theorem Represents.openIn (h : Represents bank ends ledger)
    (hb : (b, branchName) ∈ ledger.branches) (hfree : bank.accountHeap a = none)
    (customerName : CString) (isPremium : Bool) :
    ∃ bank' ends', openIn bank a b customerName isPremium = .ok bank' ∧
      Represents bank' ends' (ledger.openAccount customerName a b isPremium) := by
  obtain ⟨next, hcell⟩ := h.exists_branch hb
  obtain ⟨heap', ends', hinsert, hlists⟩ := h.accounts.insertLast b hfree
    (newAccount customerName isPremium (UInt32.ofNat ((ledger.accounts b).length + 1)))
  have hchains := h.chains.setAt hcell ⟨branchName, ends'⟩
  refine ⟨{ bank with
    branchHeap := Function.update bank.branchHeap b (some ⟨⟨branchName, ends'⟩, next⟩)
    accountHeap := heap' }, Function.update ends b ends', ?_, ?_⟩
  · simp only [Banking.openIn, Heap.load_some hcell, Outcome.ok_bind, h.nextId b, hinsert,
      Heap.store_some hcell]
  · exact
      { capacity := h.capacity
        hashed := h.hashed
        chains := by
          have hcells : (fun i => (bucket ledger i).map (cell (Function.update ends b ends'))) =
              fun i => setAt b ⟨branchName, ends'⟩ ((bucket ledger i).map (cell ends)) :=
            funext (h.cell_update hb ends')
          exact hcells ▸ hchains
        accounts := hlists
        opened := by
          intro b' hb'
          have hne : b' ≠ b := fun heq => hb' _ hb heq.symm
          exact (Function.update_of_ne hne ..).trans (h.opened b' hb')
        numbered := h.numbered.openAccount customerName a b isPremium
        bounded := (h.bounded.update a _).insertLast hinsert }

/-- More money on an account. -/
theorem Represents.deposit (h : Represents bank ends ledger) {account : Account}
    {next : Option ℕ} (hcell : bank.accountHeap a = some ⟨account, next⟩) (amt : UInt32) :
    Represents { bank with
      accountHeap := Function.update bank.accountHeap a (some ⟨account.credit amt, next⟩) } ends
      (ledger.deposit a amt) where
  capacity := h.capacity
  hashed := h.hashed
  chains := h.chains
  accounts := by
    have hmap : (ledger.deposit a amt).accounts =
        fun b => setAt a (account.credit amt) (ledger.accounts b) := by
      funext b
      exact (h.accounts.holds b).chain.map_eq_setAt hcell fun account => account.credit amt
    rw [hmap]
    exact h.accounts.setAt hcell (account.credit amt)
  opened := by
    intro b hb
    simp only [Ledger.deposit, h.opened b hb, List.map_nil]
  numbered := h.numbered.deposit a amt
  bounded := h.bounded.update a _

/-- What `deposit` changes. -/
theorem Represents.deposit_of_ok (h : Represents bank ends ledger) {amt : UInt32}
    (hok : Banking.deposit bank branchId customerName amt fuel = .ok bank') :
    ∃ b a account next, ledger.findBranch branchId = some b ∧
      ledger.findAccount customerName b = some a ∧ bank.accountHeap a = some ⟨account, next⟩ ∧
      bank' = { bank with
        accountHeap := Function.update bank.accountHeap a (some ⟨account.credit amt, next⟩) } := by
  obtain ⟨found, hfound, hok⟩ := Outcome.bind_eq_ok.mp hok
  obtain ⟨node, hload, hok⟩ := Outcome.bind_eq_ok.mp hok
  obtain ⟨b, hb, hfind⟩ := h.findCustomer_of_ok hfound
  cases found with
  | none => cases hload
  | some a =>
    obtain ⟨account, -, hmem⟩ := find_eq_some hfind.symm
    obtain ⟨next, hcell⟩ := (h.accounts.holds b).chain.exists_next hmem
    rw [Heap.load_some hcell] at hload
    cases hload
    rw [Heap.store_some hcell, Outcome.ok_bind] at hok
    exact ⟨b, a, account, next, hb, hfind.symm, hcell, (Except.ok.inj hok).symm⟩

/-- A call that returns does to the bank what it does to the ledger. -/
theorem Represents.step {e : Call} (h : Represents bank ends ledger) (hstep : Step bank e bank') :
    ∃ ends', Represents bank' ends' (ledger.apply e) := by
  cases hstep with
  | @addBranch newBranch fuel branchName _ hfree hcall =>
    obtain ⟨idx, hidx, hrest⟩ := Outcome.bind_eq_ok.mp hcall
    obtain ⟨bucket, hload, -⟩ := Outcome.bind_eq_ok.mp hrest
    obtain ⟨i, hi, -⟩ := Block.exists_of_load hload
    rw [h.capacity] at hidx
    obtain ⟨bank₁, hreturns, -, h'⟩ := h.addBranch hfree hidx (Int.ofNat.inj hi)
    cases hreturns.eq_of_ok hcall
    exact ⟨ends, h'⟩
  | @openAccount account fuel branchId customerName isPremium _ hfree hcall =>
    obtain ⟨found, hfound, hcall⟩ := Outcome.bind_eq_ok.mp hcall
    have hfind := h.find_eq_of_ok hfound
    cases found with
    | none => cases hcall
    | some b =>
      obtain ⟨bank₁, ends', hopen, h'⟩ :=
        h.openIn (Ledger.mem_of_findBranch hfind.symm) hfree customerName isPremium
      cases hopen.symm.trans hcall
      refine ⟨ends', ?_⟩
      rw [Ledger.apply, ← hfind]
      exact h'
  | @deposit fuel branchId customerName amt _ hcall =>
    obtain ⟨b, a, account, next, hb, ha, hcell, rfl⟩ := h.deposit_of_ok hcall
    refine ⟨ends, ?_⟩
    rw [Ledger.apply, hb, Option.bind_some, ha]
    exact h.deposit hcell amt

theorem represents {trace : Trace Bank Call} (hrun : Run system trace bank) :
    ∃ ends, Represents bank ends (Banking.ledger (events trace)) := by
  refine hrun.invariant (I := fun calls bank => ∃ ends, Represents bank ends (ledger calls)) ?_ ?_
  · rintro s rfl
    exact ⟨_, represents_initBank⟩
  · rintro calls s e s' ⟨ends, h⟩ hstep
    rw [ledger, List.foldl_append]
    exact h.step hstep

/-! ### The bank is faithful -/

/-- What the operations find and change is what the ledger says. -/
structure Faithful (bank : Bank) (ledger : Ledger) : Prop where
  find_eq : ∀ branchId, CString.IsAscii branchId →
    Returns (find bank branchId) (ledger.findBranch branchId)
  holds : ∀ b branchId, (b, branchId) ∈ ledger.branches → ∃ ends next,
    bank.branchHeap b = some ⟨⟨branchId, ends⟩, next⟩ ∧
      Holds bank.accountHeap ends (ledger.accounts b)
  numbered : ledger.Numbered
  findCustomer_eq : ∀ branchId customerName b, CString.IsAscii branchId →
    ledger.findBranch branchId = some b →
      Returns (findCustomer bank branchId customerName) (ledger.findAccount customerName b)
  deposit_eq : ∀ branchId customerName amt bank',
    Step bank (.deposit branchId customerName amt) bank' →
      ∃ b a account next, ledger.findBranch branchId = some b ∧
        ledger.findAccount customerName b = some a ∧
        bank.accountHeap a = some ⟨account, next⟩ ∧
        bank' = { bank with
          accountHeap := Function.update bank.accountHeap a (some ⟨account.credit amt, next⟩) }

/-- The index of an ASCII id names a bucket. -/
theorem exists_branchIdx (hascii : branchId.IsAscii) :
    ∃ (idx : UInt8) (i : Fin bankBranchCapacity),
      branchIdx branchId bankBranchCapacity = .ok idx ∧ idx.toNat = i := by
  obtain ⟨i, hhash, hbyte⟩ := exists_charHash_eq (n := bankBranchCapacity) (by decide)
    (by decide) hascii
  exact ⟨_, i, by rw [branchIdx, hashFunction, hhash, Outcome.ok_bind], hbyte⟩

/-- After every sequence of calls the bank is what its ledger says: searches give the
first branch and the first account of a name, accounts are listed as they were opened and
numbered from one, and a deposit changes one balance. -/
theorem faithful {trace : Trace Bank Call} (hrun : Run system trace bank) :
    Faithful bank (Banking.ledger (events trace)) := by
  obtain ⟨ends, h⟩ := represents hrun
  have hfind : ∀ branchId, CString.IsAscii branchId →
      Returns (find bank branchId) ((Banking.ledger (events trace)).findBranch branchId) := by
    intro branchId hascii
    obtain ⟨idx, i, hidx, hi⟩ := exists_branchIdx hascii
    exact h.find hidx hi
  exact
    { find_eq := hfind
      holds := by
        intro b branchId hb
        obtain ⟨next, hcell⟩ := h.exists_branch hb
        exact ⟨ends b, next, hcell, h.accounts.holds b⟩
      numbered := h.numbered
      findCustomer_eq := by
        intro branchId customerName b hascii hb
        exact h.findCustomer_of_find hb (hb ▸ hfind branchId hascii)
      deposit_eq := by
        intro branchId customerName amt bank' hstep
        cases hstep with
        | deposit hcall => exact h.deposit_of_ok hcall }

/-! ### Runs of a bank with one branch -/

/-- A branch that is found takes another account. -/
theorem Represents.exists_openAccount (h : Represents bank ends ledger)
    (hascii : branchId.IsAscii) (hb : ledger.findBranch branchId = some b)
    (hfree : bank.accountHeap a = none) (customerName : CString) (isPremium : Bool) :
    ∃ bank', Step bank (.openAccount a branchId customerName isPremium) bank' := by
  obtain ⟨idx, i, hidx, hi⟩ := exists_branchIdx hascii
  obtain ⟨fuel, hfind⟩ := (h.find hidx hi).exists_ok
  obtain ⟨bank', ends', hopen, -⟩ :=
    h.openIn (Ledger.mem_of_findBranch hb) hfree customerName isPremium
  have hcall : Banking.openAccount bank a branchId customerName isPremium fuel = .ok bank' := by
    rw [Banking.openAccount, hfind, Outcome.ok_bind, hb]
    exact hopen
  exact ⟨bank', .openAccount hfree hcall⟩

/-- A branch of `main`. -/
def ger : CString := .ofString "GER"

/-- A customer of `main`. -/
def mario : CString := .ofString "Mario Cesar"

theorem exists_run_ger :
    ∃ trace bank, Run system trace bank ∧ events trace = [.addBranch 0 ger] ∧
      bank.accountHeap = initBank.accountHeap := by
  obtain ⟨idx, i, hidx, hi⟩ := exists_branchIdx (by decide +kernel : ger.IsAscii)
  obtain ⟨bank, hreturns, hheap, -⟩ := represents_initBank.addBranch (b := 0) rfl hidx hi
  obtain ⟨fuel, hcall⟩ := hreturns.exists_ok
  exact ⟨_, bank, (Run.start rfl).step (.addBranch rfl hcall), rfl, hheap⟩

/-- A branch of `main` and its first account. -/
theorem faithful_ger :
    ∃ trace bank, Run system trace bank ∧
      events trace = [.addBranch 0 ger, .openAccount 0 ger mario false] ∧
      Faithful bank (Banking.ledger (events trace)) := by
  obtain ⟨trace, bank, hrun, hevents, hheap⟩ := exists_run_ger
  obtain ⟨ends, h⟩ := represents hrun
  have hfree : bank.accountHeap 0 = none := congrFun hheap 0
  rw [hevents] at h
  obtain ⟨bank', hstep⟩ := h.exists_openAccount (by decide +kernel : ger.IsAscii)
    (by decide : (Banking.ledger [.addBranch 0 ger]).findBranch ger = some 0) hfree mario false
  have hrun' := hrun.step hstep
  refine ⟨_, bank', hrun', ?_, faithful hrun'⟩
  rw [events_concat, hevents]
  rfl

/-- Any number of accounts can be opened. -/
theorem exists_run_length (k : ℕ) :
    ∃ trace bank, Run system trace bank ∧
      (Banking.ledger (events trace)).findBranch ger = some 0 ∧
      ((Banking.ledger (events trace)).accounts 0).length = k := by
  induction k with
  | zero =>
    obtain ⟨trace, bank, hrun, hevents, -⟩ := exists_run_ger
    refine ⟨trace, bank, hrun, ?_, ?_⟩
    · rw [hevents]
      decide
    · rw [hevents]
      rfl
  | succ k ih =>
    obtain ⟨trace, bank, hrun, hfind, hlength⟩ := ih
    obtain ⟨ends, h⟩ := represents hrun
    obtain ⟨a, hfree⟩ := h.bounded.exists_free
    obtain ⟨bank', hstep⟩ :=
      h.exists_openAccount (by decide +kernel : ger.IsAscii) hfind hfree mario false
    have hledger : Banking.ledger (events (trace ++ [(bank, .openAccount a ger mario false)])) =
        (Banking.ledger (events trace)).openAccount mario a 0 false := by
      rw [events_concat, ledger, List.foldl_append, List.foldl_cons, List.foldl_nil, ← ledger,
        Ledger.apply, hfind]
    refine ⟨_, bank', hrun.step hstep, ?_, ?_⟩
    · rw [hledger]
      exact hfind
    · rw [hledger, Ledger.openAccount]
      simp [hlength]

/-- The account with the number `2 ^ 32` has the id zero. -/
theorem id_wraps :
    ∃ trace bank ends next nodes a account, Run system trace bank ∧
      bank.branchHeap 0 = some ⟨⟨ger, ends⟩, next⟩ ∧ Holds bank.accountHeap ends nodes ∧
      nodes[2 ^ 32 - 1]? = some (a, account) ∧ account.id = 0 := by
  obtain ⟨trace, bank, hrun, hfind, hlength⟩ := exists_run_length (2 ^ 32)
  obtain ⟨ends, h⟩ := represents hrun
  obtain ⟨next, hcell⟩ := h.exists_branch (Ledger.mem_of_findBranch hfind)
  have hlt : 2 ^ 32 - 1 < ((Banking.ledger (events trace)).accounts 0).length := by omega
  have hget := List.getElem?_eq_getElem hlt
  exact ⟨trace, bank, ends 0, next, _, _, _, hrun, hcell, h.accounts.holds 0, hget,
    h.numbered 0 _ _ _ hget⟩

end BareMetal.Banking
