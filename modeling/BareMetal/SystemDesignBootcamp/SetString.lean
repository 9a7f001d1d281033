import BareMetal.CS.StringCopy
import BareMetal.SystemDesignBootcamp.Arena

/-!
# Strings in the padded arena

`set_string` copies a string into a new block and puts a terminator into the last byte of it. A
block of no bytes has none: the index of the terminator is `SIZE_MAX` then, and the byte that is
written is the one before the block.

## Main results

* `exists_setString` — a block with room for a terminator
* `setString_zero` — a block of no bytes
* `stores_iff` — the blocks that are written and nothing else
-/

namespace BareMetal.PaddedArena

open CS Transition StringCopy

/-- `text[index]` for a pointer `text` into the memory. The address is a sum modulo `2 ^ 64`, so
`SIZE_MAX` leads one byte back. -/
def index (text index : UInt64) : ℤ := text.toNat + index.toInt64.toInt

/-- `set_string`, with the pointer that it returns. -/
def setString (arena : Arena) (str : TextBuffer) (strSize : UInt64) : Outcome (Arena × UInt64) := do
  let (arena, text) ← allocObj arena strSize
  let copy ← paddedCopy str.cells strSize.toNat
  let memory ← arena.memory.write text.toNat (copy.map Int8.toUInt8)
  let memory ← memory.store (index text (strSize - 1)) 0
  .ok ({ arena with memory := memory }, text)

/-- A call that returned. -/
inductive StringCall
  | setString (str : TextBuffer) (strSize ptr : UInt64)
  | reset

/-- The calls that do not exit and write to the memory only. -/
inductive StringStep : Arena → StringCall → Arena → Prop
  | setString {arena arena' : Arena} {str : TextBuffer} {strSize ptr : UInt64} :
      PaddedArena.setString arena str strSize = .ok (arena', ptr) →
      StringStep arena (.setString str strSize ptr) arena'
  | reset {arena : Arena} : StringStep arena .reset (arenaReset arena)

/-- Any sequence of calls of `set_string` and `arena_reset` on a new arena. -/
def strings : System Arena StringCall where
  start arena := arena = initArena
  step := StringStep

/-- The bytes of a block. -/
def bytes (memory : Block maxSize UInt8) (ptr size : ℕ) : List UInt8 :=
  ((List.ofFn memory).drop ptr).take size

/-- Nothing but the block was written, and a block with room for a terminator holds the first
characters of the string and a terminator. -/
structure Stores (arena arena' : Arena) (str : CString) (ptr size : ℕ) : Prop where
  frame : ∀ i : Fin maxSize, ¬ (ptr ≤ i ∧ i < ptr + size) → arena'.memory i = arena.memory i
  text : 1 ≤ size → ∃ rest, bytes arena'.memory ptr size =
    (str.take (size - 1)).map Int8.toUInt8 ++ 0 :: rest

variable {arena arena' : Arena} {str : TextBuffer} {strSize ptr : UInt64} {blocks : List Extent}
  {trace : Trace Arena StringCall} {m : ℕ}

/-! ### One call -/

theorem index_zero (text : UInt64) : index text (0 - 1) = (text.toNat : ℤ) - 1 := rfl

/-- The last byte of a block. -/
theorem index_last (text : UInt64) (hsize : strSize.toNat = m + 1) (hm : m < maxSize) :
    index text (strSize - 1) = (text.toNat + m : ℕ) := by
  rw [maxSize] at hm
  have hone : (1 : UInt64) ≤ strSize := by
    rw [UInt64.le_iff_toNat_le, hsize]
    exact Nat.succ_le_succ (Nat.zero_le m)
  have hlast : (strSize - 1).toNat = m := by
    rw [UInt64.toNat_sub_of_le _ _ hone, hsize]
    rfl
  have hint : (strSize - 1).toInt64.toInt = m := by
    have hsmall : 2 * (strSize - 1).toBitVec.toNat < 2 ^ 64 := by
      have hnat : (strSize - 1).toBitVec.toNat = m := hlast
      omega
    exact (BitVec.toInt_eq_toNat_of_lt hsmall).trans (congrArg Nat.cast hlast)
  rw [index, hint, Nat.cast_add]

/-- A request that fits is accepted. -/
theorem Packed.exists_allocObj (h : Packed arena blocks)
    (hfits : arena.allocated.toNat + strSize.toNat ≤ maxSize) :
    ∃ arena', allocObj arena strSize = .ok (arena', arena.allocated) ∧
      arena'.memory = arena.memory := by
  have hcapacity := h.capacity_eq
  have hsum : (arena.allocated + strSize).toNat = arena.allocated.toNat + strSize.toNat := by
    rw [maxSize] at hfits
    rw [UInt64.toNat_add, Nat.mod_eq_of_lt (by omega)]
  have hroom : ¬ arena.allocated + strSize > arena.capacity := by
    rw [gt_iff_lt, UInt64.lt_iff_toNat_lt, hsum, hcapacity]
    exact Nat.not_lt.mpr hfits
  unfold allocObj
  rw [if_neg hroom]
  exact ⟨_, rfl, rfl⟩

/-- A block with room for a terminator. -/
theorem Packed.exists_setString (h : Packed arena blocks)
    (hfits : arena.allocated.toNat + strSize.toNat ≤ maxSize) (hsize : strSize.toNat = m + 1)
    (str : TextBuffer) :
    ∃ arena', setString arena str strSize = .ok (arena', arena.allocated) ∧
      arena'.memory = arena.memory.overwrite arena.allocated.toNat
        (((StringCopy.padded str.chars (m + 1)).set m 0).map Int8.toUInt8) := by
  obtain ⟨arena₁, halloc, hmemory⟩ := h.exists_allocObj hfits
  have hlength : ((StringCopy.padded str.chars (m + 1)).map Int8.toUInt8).length = m + 1 := by simp
  have hwrite : arena.memory.write arena.allocated.toNat
      ((StringCopy.padded str.chars (m + 1)).map Int8.toUInt8) = .ok (arena.memory.overwrite
        arena.allocated.toNat ((StringCopy.padded str.chars (m + 1)).map Int8.toUInt8)) :=
    Block.write_eq _ (by omega)
  have hin : arena.allocated.toNat + m < arena.allocated.toNat +
      ((StringCopy.padded str.chars (m + 1)).map Int8.toUInt8).length := by
    rw [hlength]
    exact Nat.lt_succ_self _
  have hlast : arena.allocated.toNat + m < maxSize := by omega
  have hindex := index_last arena.allocated hsize (by omega)
  refine ⟨{ arena₁ with memory := _ }, ?_, rfl⟩
  rw [setString, halloc, Outcome.ok_bind]
  dsimp only
  rw [TextBuffer.cells, hsize, paddedCopy_append str.nul_notMem, Outcome.ok_bind, hmemory, hwrite,
    Outcome.ok_bind, hindex, Block.store_natCast _ ⟨_, hlast⟩, Outcome.ok_bind,
    Block.update_overwrite (Nat.le_add_right _ m) hin, Nat.add_sub_cancel_left, List.map_set]
  rfl

/-- The bytes that were written. -/
theorem bytes_overwrite (memory : Block maxSize UInt8) {k : ℕ} {values : List UInt8}
    (hfits : k + values.length ≤ maxSize) :
    bytes (memory.overwrite k values) k values.length = values := by
  refine List.ext_getElem? fun j => ?_
  unfold bytes
  rcases Nat.lt_or_ge j values.length with hlt | hge
  · have hcell : k + j < maxSize := by omega
    have hvalue : values[(⟨k + j, hcell⟩ : Fin maxSize).val - k]? = some values[j] := by
      rw [Nat.add_sub_cancel_left, List.getElem?_eq_getElem hlt]
    rw [List.getElem?_take_of_lt hlt, List.getElem?_drop, List.getElem?_ofFn, dif_pos hcell,
      Block.overwrite_of_getElem? (Nat.le_add_right k j) hvalue, List.getElem?_eq_getElem hlt]
  · rw [List.getElem?_take_eq_none hge, List.getElem?_eq_none hge]

/-- A block with room for a terminator is written, and nothing else. -/
theorem stores_overwrite {arena' : Arena} (str : CString) {k : ℕ} (hfits : k + (m + 1) ≤ maxSize)
    (hmemory : arena'.memory = arena.memory.overwrite k
      (((StringCopy.padded str (m + 1)).set m 0).map Int8.toUInt8)) :
    Stores arena arena' str k (m + 1) := by
  have hlength : (((StringCopy.padded str (m + 1)).set m 0).map Int8.toUInt8).length = m + 1 := by
    simp
  refine ⟨fun i hout => ?_, fun _ => ⟨(List.replicate (m - str.length) 0).map Int8.toUInt8, ?_⟩⟩
  · rw [hmemory]
    by_cases hbefore : (i : ℕ) < k
    · exact Block.overwrite_of_lt hbefore
    · exact Block.overwrite_of_ge (by omega)
  · have hbytes := bytes_overwrite arena.memory (k := k) (hlength.symm ▸ hfits)
    rw [hlength, ← hmemory] at hbytes
    rw [hbytes, set_padded, List.map_append, List.map_cons, Nat.add_sub_cancel]
    rfl

/-- For a block of no bytes, the byte before it is set to 0. -/
theorem Packed.setString_zero (h : Packed arena blocks) (str : TextBuffer) :
    ∃ arena₁ : Arena, arena₁.memory = arena.memory ∧ setString arena str 0 =
      (arena.memory.store ((arena.allocated.toNat : ℤ) - 1) 0 >>= fun memory =>
        .ok ({ arena₁ with memory := memory }, arena.allocated)) := by
  have hfits : arena.allocated.toNat + (0 : UInt64).toNat ≤ maxSize := h.allocated_le
  obtain ⟨arena₁, halloc, hmemory⟩ := h.exists_allocObj hfits
  refine ⟨arena₁, hmemory, ?_⟩
  rw [setString, halloc, Outcome.ok_bind]
  dsimp only
  have hcopy : paddedCopy str.cells (0 : UInt64).toNat = .ok [] := by
    rw [UInt64.toNat_zero, paddedCopy]
  rw [index_zero, hcopy, Outcome.ok_bind, ← hmemory]
  rfl

/-- A block of no bytes at the start of the memory has no byte before it. -/
theorem Packed.setString_start (h : Packed arena blocks) (str : TextBuffer)
    (hstart : arena.allocated.toNat = 0) :
    setString arena str 0 = .error (.outOfBounds (-1)) := by
  obtain ⟨arena₁, -, hcall⟩ := h.setString_zero str
  rw [hcall, hstart]
  rfl

/-- Behind other blocks, the byte before a block of no bytes is set to 0. -/
theorem Packed.setString_behind (h : Packed arena blocks) (str : TextBuffer) {i : Fin maxSize}
    (hi : (i : ℕ) + 1 = arena.allocated.toNat) :
    ∃ arena', setString arena str 0 = .ok (arena', arena.allocated) ∧
      arena'.memory = Function.update arena.memory i 0 := by
  obtain ⟨arena₁, -, hcall⟩ := h.setString_zero str
  have hbefore : (arena.allocated.toNat : ℤ) - 1 = (i : ℕ) := by omega
  refine ⟨{ arena₁ with memory := Function.update arena.memory i 0 }, ?_, rfl⟩
  rw [hcall, hbefore, Block.store_natCast]
  rfl

/-! ### Runs -/

/-- A call that returns has stayed in the memory, so its block fits. -/
theorem le_of_setString (hok : setString arena str strSize = .ok (arena', ptr)) :
    strSize.toNat ≤ maxSize := by
  obtain ⟨⟨arena₁, text⟩, -, hok⟩ := Outcome.bind_eq_ok.mp hok
  obtain ⟨copy, hcopy, hok⟩ := Outcome.bind_eq_ok.mp hok
  obtain ⟨memory, hwrite, -⟩ := Outcome.bind_eq_ok.mp hok
  have hlength := length_of_paddedCopy hcopy
  by_cases hnil : copy = []
  · rw [← hlength, hnil]
    exact Nat.zero_le _
  · have hne : copy.map Int8.toUInt8 ≠ [] := fun heq => hnil (List.map_eq_nil_iff.mp heq)
    have hin := (Block.le_of_write hne hwrite).2
    rw [List.length_map] at hin
    omega

/-- Every call keeps the arena packed. -/
theorem exists_packed (hrun : Run strings trace arena) : ∃ blocks, Packed arena blocks := by
  refine hrun.invariant (I := fun _ arena => ∃ blocks, Packed arena blocks) ?_ ?_
  · rintro s rfl
    exact ⟨[], packed_init⟩
  · rintro calls s e s' ⟨blocks, h⟩ hstep
    cases hstep with
    | @setString _ str strSize ptr hok =>
      have hle := le_of_setString hok
      obtain ⟨⟨arena₁, text⟩, halloc, hok⟩ := Outcome.bind_eq_ok.mp hok
      obtain ⟨copy, -, hok⟩ := Outcome.bind_eq_ok.mp hok
      obtain ⟨memory, -, hok⟩ := Outcome.bind_eq_ok.mp hok
      obtain ⟨memory', -, hok⟩ := Outcome.bind_eq_ok.mp hok
      cases hok
      have hmodest : strSize.toNat ≤ 2 ^ 64 - 1 - s.capacity.toNat := by
        rw [h.capacity_eq]
        rw [maxSize] at hle ⊢
        omega
      obtain ⟨-, hpacked⟩ := allocObj_spec h hmodest halloc
      exact ⟨_, hpacked.capacity_eq, hpacked.aligned, hpacked.allocated_le, hpacked.laid⟩
    | reset => exact ⟨[], h.reset⟩

/-- **Storing a string.** In every arena that a run reaches, a string whose block fits is stored
in it and nothing else is changed, exactly when the block has a byte, or has none and the byte
before it is there and 0 already. -/
theorem stores_iff (hrun : Run strings trace arena) (str : TextBuffer)
    (hfits : arena.allocated.toNat + strSize.toNat ≤ arena.capacity.toNat) :
    (∃ arena' ptr, setString arena str strSize = .ok (arena', ptr) ∧
        Stores arena arena' str.chars ptr.toNat strSize.toNat) ↔
      1 ≤ strSize.toNat ∨
        ∃ i : Fin maxSize, (i : ℕ) + 1 = arena.allocated.toNat ∧ arena.memory i = 0 := by
  obtain ⟨blocks, h⟩ := exists_packed hrun
  rw [h.capacity_eq] at hfits
  rcases Nat.eq_zero_or_pos strSize.toNat with hzero | hpos
  · have hsize : strSize = 0 := UInt64.toNat_inj.mp hzero
    subst hsize
    refine Iff.trans ?_ (or_iff_right (by decide)).symm
    rcases Nat.eq_zero_or_pos arena.allocated.toNat with hstart | hpos
    · rw [h.setString_start str hstart]
      refine iff_of_false (fun ⟨_, _, hok, _⟩ => nomatch hok) fun ⟨i, hi, _⟩ => ?_
      omega
    · have hle := h.allocated_le
      obtain ⟨i, hi⟩ : ∃ i : Fin maxSize, (i : ℕ) + 1 = arena.allocated.toNat :=
        ⟨⟨arena.allocated.toNat - 1, by omega⟩, Nat.sub_add_cancel hpos⟩
      obtain ⟨arena', hok, hmemory⟩ := h.setString_behind str hi
      rw [hok]
      constructor
      · rintro ⟨_, _, heq, hstores⟩
        cases heq
        -- the byte before the block is outside it
        have hframe := hstores.frame i fun hin => by omega
        rw [hmemory, Function.update_self] at hframe
        exact ⟨i, hi, hframe.symm⟩
      · rintro ⟨j, hj, hbyte⟩
        have hij : j = i := Fin.ext (Nat.succ_injective (hj.trans hi.symm))
        have hsame : arena'.memory = arena.memory := by
          rw [hmemory, ← hij, ← hbyte, Function.update_eq_self]
        exact ⟨arena', _, rfl, fun k _ => congrFun hsame k, fun hsize => absurd hsize (by decide)⟩
  · obtain ⟨m, hm⟩ := Nat.exists_eq_succ_of_ne_zero (Nat.ne_of_gt hpos)
    obtain ⟨arena', hok, hmemory⟩ := h.exists_setString hfits hm str
    rw [hm] at hfits ⊢
    exact iff_of_true ⟨arena', _, hok, stores_overwrite str.chars hfits hmemory⟩
      (Or.inl (Nat.succ_le_succ (Nat.zero_le m)))

/-- The first string of `main`. -/
def helloWorld : TextBuffer where
  chars := CString.ofString "Hello World!"
  rest := []
  nul_notMem := by decide

/-- The first call of `main`. -/
theorem stores_helloWorld :
    (∃ arena' ptr, setString initArena helloWorld 13 = .ok (arena', ptr) ∧
        Stores initArena arena' helloWorld.chars ptr.toNat 13) ↔
      1 ≤ (13 : UInt64).toNat ∨
        ∃ i : Fin maxSize, (i : ℕ) + 1 = initArena.allocated.toNat ∧ initArena.memory i = 0 :=
  stores_iff (.start rfl) _ (by decide)

/-- For a block of no bytes in a new arena, the terminator goes in front of the memory. -/
theorem no_bytes_writes_before :
    initArena.allocated.toNat + (0 : UInt64).toNat ≤ initArena.capacity.toNat ∧
      setString initArena helloWorld 0 = .error (.outOfBounds (-1)) ∧
      ¬ ∃ arena' ptr, setString initArena helloWorld 0 = .ok (arena', ptr) ∧
        Stores initArena arena' helloWorld.chars ptr.toNat 0 := by
  have hcall : setString initArena helloWorld 0 = .error (.outOfBounds (-1)) :=
    packed_init.setString_start _ rfl
  refine ⟨by decide, hcall, ?_⟩
  rw [hcall]
  exact fun ⟨_, _, hok, _⟩ => nomatch hok

end BareMetal.PaddedArena
