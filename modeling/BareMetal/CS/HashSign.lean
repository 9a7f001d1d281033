import BareMetal.CS.Text

/-!
# The sign of a hash

The characters of a C string may be negative, and a remainder has the sign of its dividend. A
hash falls below zero where the sum of the characters comes down from a multiple of the
capacity, and it stays there while the sum stays between that multiple and the one below.

## Main results

* `isHash_of_ok` — the range of a hash, its class and its sign
* `isIndex_charHash_iff`, `isByteIndex_charHash_iff` — a hash, as an `int` or as a byte, names a
  cell exactly when the sum has not fallen
-/

namespace CS

/-- The sum of the characters has come down from `bound` or from above it, and since then it has
been less than `capacity` below it. -/
def FallenBelow (capacity bound : ℤ) (key : CString) : Prop :=
  ∃ pre, pre <+: key ∧ pre.length < key.length ∧ bound ≤ charSum pre ∧
    ∀ p, p <+: key → pre.length < p.length → bound - capacity < charSum p ∧ charSum p < bound

/-- The sum of the characters has come down from a multiple of the capacity and not reached the
next one. -/
def Fallen (capacity : ℤ) (key : CString) : Prop :=
  ∃ bound, capacity ∣ bound ∧ FallenBelow capacity bound key

/-- What is known of a hash: its range, its class and its sign. -/
structure IsHash (capacity : ℤ) (key : CString) (hash : ℤ) : Prop where
  lower : -capacity < hash
  upper : hash < capacity
  dvd : capacity ∣ charSum key - hash
  neg_iff : hash < 0 ↔ Fallen capacity key

variable {key : CString} {capacity bound hash hash' : ℤ} {c : Int8}

/-! ### Sums that come down -/

theorem FallenBelow.between (h : FallenBelow capacity bound key) :
    bound - capacity < charSum key ∧ charSum key < bound := by
  obtain ⟨pre, -, hlt, -, hsince⟩ := h
  exact hsince key List.prefix_rfl hlt

theorem not_fallen_nil (capacity : ℤ) : ¬ Fallen capacity [] := by
  rintro ⟨bound, -, pre, -, hlt, -⟩
  exact Nat.not_lt_zero _ hlt

/-- One more character: the sum comes down with it, or it stays down. -/
theorem fallenBelow_concat :
    FallenBelow capacity bound (key ++ [c]) ↔
      (bound ≤ charSum key ∨ FallenBelow capacity bound key) ∧
        bound - capacity < charSum (key ++ [c]) ∧ charSum (key ++ [c]) < bound := by
  constructor
  · intro h
    refine ⟨?_, h.between⟩
    obtain ⟨pre, hpre, hlt, hbound, hsince⟩ := h
    have hpre' : pre <+: key := by
      rcases List.prefix_concat_iff.mp hpre with rfl | hpre
      · exact absurd hlt (Nat.lt_irrefl _)
      · exact hpre
    -- the sum has come down before the last character, or with it
    rcases hpre'.length_le.lt_or_eq with hshort | hall
    · exact Or.inr ⟨pre, hpre', hshort, hbound, fun p hp =>
        hsince p (hp.trans (List.prefix_append ..))⟩
    · rw [hpre'.eq_of_length hall] at hbound
      exact Or.inl hbound
  · rintro ⟨hbefore, hlast⟩
    -- the prefixes after the start are those of `key`, and the whole
    have hsince : ∀ pre : CString, (∀ p, p <+: key → pre.length < p.length →
        bound - capacity < charSum p ∧ charSum p < bound) →
          ∀ p, p <+: key ++ [c] → pre.length < p.length →
            bound - capacity < charSum p ∧ charSum p < bound := by
      intro pre hold p hp hlt
      rcases List.prefix_concat_iff.mp hp with rfl | hp
      · exact hlast
      · exact hold p hp hlt
    have hlonger : key.length < (key ++ [c]).length := by simp
    rcases hbefore with hbound | ⟨pre, hpre, hlt, hbound, hold⟩
    · refine ⟨key, List.prefix_append .., hlonger, hbound, hsince key fun p hp hlt => ?_⟩
      exact absurd hp.length_le (Nat.not_le.mpr hlt)
    · exact ⟨pre, hpre.trans (List.prefix_append ..), hlt.trans hlonger, hbound, hsince pre hold⟩

/-- The sums of ASCII text only grow. -/
theorem CString.IsAscii.not_fallen (h : key.IsAscii) : ¬ Fallen capacity key := by
  rintro ⟨bound, -, hfallen⟩
  induction key using List.reverseRecOn with
  | nil =>
    obtain ⟨pre, -, hlt, -⟩ := hfallen
    exact Nat.not_lt_zero _ hlt
  | append_singleton key c ih =>
    obtain ⟨hkey, hc⟩ := h.of_concat
    obtain ⟨hbefore, -, hlt⟩ := fallenBelow_concat.mp hfallen
    have hpos : 0 < c.toInt := Int8.lt_iff_toInt_lt.mp hc
    rw [charSum_concat] at hlt
    rcases hbefore with hbound | hold
    · omega
    · exact ih hkey hold

/-! ### Remainders -/

/-- A multiple that is less than one step above another one is not above it. -/
theorem le_of_dvd_of_lt {m n : ℤ} (hm : capacity ∣ m) (hn : capacity ∣ n)
    (hlt : m - capacity < n) : m ≤ n := by
  by_contra hgt
  have hle := Int.le_of_dvd (by omega) (Int.dvd_sub hm hn)
  omega

theorem tmod_neg_iff (a capacity : ℤ) : a.tmod capacity < 0 ↔ a < 0 ∧ ¬ capacity ∣ a := by
  constructor
  · intro hneg
    refine ⟨?_, fun hdvd => ?_⟩
    · by_contra hnonneg
      exact absurd (Int.tmod_nonneg capacity (Int.not_lt.mp hnonneg)) (Int.not_le.mpr hneg)
    · rw [Int.tmod_eq_zero_of_dvd hdvd] at hneg
      exact Int.lt_irrefl 0 hneg
  · rintro ⟨hneg, hdvd⟩
    have hnonneg := Int.tmod_nonneg (a := -a) capacity (by omega)
    have hne : a.tmod capacity ≠ 0 := fun hzero => hdvd (Int.dvd_of_tmod_eq_zero hzero)
    rw [Int.neg_tmod] at hnonneg
    omega

/-- A step of the hash that returns. -/
theorem charHashStep_eq_ok (h : charHashStep capacity hash c = .ok hash') :
    hash' = (hash + c.toInt).tmod capacity := by
  obtain ⟨sum, hsum, hmod⟩ := Outcome.bind_eq_ok.mp h
  rw [(of_addInt_eq_ok hsum).1] at hmod
  unfold modInt at hmod
  split_ifs at hmod
  exact (Except.ok.inj hmod).symm

theorem isHash_nil (hcapacity : 0 < capacity) : IsHash capacity [] 0 where
  lower := by omega
  upper := hcapacity
  dvd := Int.dvd_zero capacity
  neg_iff := iff_of_false (Int.lt_irrefl 0) (not_fallen_nil capacity)

/-- The multiple under a hash is the bound from which the sum has fallen. -/
theorem IsHash.fallenBelow (h : IsHash capacity key hash) (hneg : hash < 0) :
    FallenBelow capacity (charSum key - hash) key := by
  obtain ⟨bound, hdvd, hfallen⟩ := h.neg_iff.mp hneg
  obtain ⟨hlow, hhigh⟩ := hfallen.between
  have hlower := h.lower
  -- both multiples are above the sum by less than the capacity
  have hle := le_of_dvd_of_lt hdvd h.dvd (by omega)
  have hge := le_of_dvd_of_lt h.dvd hdvd (by omega)
  rwa [Int.le_antisymm hge hle]

/-- The next hash. -/
theorem IsHash.step (h : IsHash capacity key hash) (hcapacity : 0 < capacity) (c : Int8) :
    IsHash capacity (key ++ [c]) ((hash + c.toInt).tmod capacity) := by
  have hlower := Int.lt_tmod_of_pos (hash + c.toInt) hcapacity
  have hdvd : capacity ∣ charSum (key ++ [c]) - (hash + c.toInt).tmod capacity := by
    have hclass := Int.dvd_add h.dvd (Int.dvd_self_sub_tmod (x := hash + c.toInt) (m := capacity))
    have heq : charSum (key ++ [c]) - (hash + c.toInt).tmod capacity =
        charSum key - hash + (hash + c.toInt - (hash + c.toInt).tmod capacity) := by
      rw [charSum_concat]
      omega
    rwa [heq]
  refine ⟨hlower, Int.tmod_lt_of_pos _ hcapacity, hdvd, ?_⟩
  have hsum := charSum_concat key c
  have hdvd₀ := h.dvd
  have hupper₀ := h.upper
  constructor
  · intro hneg
    have hdown := ((tmod_neg_iff ..).mp hneg).1
    refine ⟨_, hdvd, fallenBelow_concat.mpr ⟨?_, by omega, by omega⟩⟩
    have hle := le_of_dvd_of_lt hdvd hdvd₀ (by omega)
    by_cases hbound : charSum (key ++ [c]) - (hash + c.toInt).tmod capacity ≤ charSum key
    · exact Or.inl hbound
    · -- the sum was already below this multiple
      have hlower₀ := h.lower
      have hge := le_of_dvd_of_lt hdvd₀ hdvd (by omega)
      rw [Int.le_antisymm hle hge]
      exact Or.inr (h.fallenBelow (by omega))
  · rintro ⟨bound, hbound, hfallen⟩
    obtain ⟨hbefore, hlow, hhigh⟩ := fallenBelow_concat.mp hfallen
    have hle : bound ≤ charSum key - hash := by
      refine le_of_dvd_of_lt hbound hdvd₀ ?_
      rcases hbefore with habove | hold
      · omega
      · have hneg := h.neg_iff.mpr ⟨bound, hbound, hold⟩
        have hbetween := hold.between
        omega
    refine (tmod_neg_iff ..).mpr ⟨by omega, fun hmultiple => ?_⟩
    -- the sum would be a multiple of the capacity between two neighbours
    have hclass := Int.dvd_add hdvd₀ hmultiple
    have hle' := le_of_dvd_of_lt hbound hclass (by omega)
    omega

/-- What a hash that is computed is like. The induction is on the characters read so far. -/
theorem isHash_of_ok (hcapacity : 0 < capacity) (hok : charHash key capacity = .ok hash) :
    IsHash capacity key hash := by
  induction key using List.reverseRecOn generalizing hash with
  | nil =>
    cases hok
    exact isHash_nil hcapacity
  | append_singleton key c ih =>
    rw [charHash_concat] at hok
    obtain ⟨hash₀, hok₀, hstep⟩ := Outcome.bind_eq_ok.mp hok
    rw [charHashStep_eq_ok hstep]
    exact (ih hok₀).step hcapacity c

/-- A capacity that leaves room for one more character, of either sign. -/
theorem exists_charHash (hcapacity : 0 < capacity) (hle : capacity ≤ intMax - 127)
    (key : CString) : ∃ hash, charHash key capacity = .ok hash := by
  induction key using List.reverseRecOn with
  | nil => exact ⟨0, rfl⟩
  | append_singleton key c ih =>
    obtain ⟨hash, hok⟩ := ih
    have h := isHash_of_ok hcapacity hok
    have hlower := h.lower
    have hupper := h.upper
    have hlt := c.toInt_lt
    have hge := c.le_toInt
    have hmin : intMin ≤ hash + c.toInt := by
      unfold intMin
      unfold intMax at hle
      omega
    have hne : capacity ≠ 0 := by omega
    refine ⟨(hash + c.toInt).tmod capacity, ?_⟩
    rw [charHash_concat, hok, Outcome.ok_bind, charHashStep, addInt_of_range hmin (by omega),
      Outcome.ok_bind, modInt, if_neg hne]

/-- A hash that is not computed has overflowed, or there is no capacity. -/
theorem charHash_eq_error {stop : Stop} (h : charHash key capacity = .error stop) :
    stop = .overflow ∨ stop = .divByZero := by
  induction key using List.reverseRecOn with
  | nil => cases h
  | append_singleton key c ih =>
    rw [charHash_concat] at h
    cases hhash : charHash key capacity with
    | error stop' =>
      rw [hhash] at h
      cases h
      exact ih hhash
    | ok hash =>
      rw [hhash, Outcome.ok_bind, charHashStep] at h
      by_cases hrange : intMin ≤ hash + c.toInt ∧ hash + c.toInt ≤ intMax
      · rw [addInt, if_pos hrange, Outcome.ok_bind, modInt] at h
        split_ifs at h
        cases h
        exact Or.inr rfl
      · rw [addInt, if_neg hrange, Outcome.error_bind] at h
        cases h
        exact Or.inl rfl

/-- A hash that is not negative is the sum modulo the capacity. -/
theorem IsHash.eq_emod (h : IsHash capacity key hash) (hnonneg : 0 ≤ hash) :
    charSum key % capacity = hash := by
  rw [Int.emod_eq_emod_iff_emod_sub_eq_zero.mpr (Int.emod_eq_zero_of_dvd h.dvd)]
  exact Int.emod_eq_of_lt hnonneg h.upper

/-! ### Hashes as indices -/

/-- The hash names one of `capacity` cells. -/
def IsIndex (capacity : ℤ) (hash : Outcome ℤ) : Prop :=
  ∃ h, hash = .ok h ∧ 0 ≤ h ∧ h < capacity

/-- The hash names one of `capacity` cells after it was narrowed to a byte. -/
def IsByteIndex (capacity : ℤ) (hash : Outcome UInt8) : Prop :=
  ∃ h, hash = .ok h ∧ (h.toNat : ℤ) < capacity

/-- A hash names a cell exactly when the sum of the characters has not fallen. -/
theorem isIndex_charHash_iff (hcapacity : 0 < capacity) (hle : capacity ≤ intMax - 127)
    (key : CString) : IsIndex capacity (charHash key capacity) ↔ ¬ Fallen capacity key := by
  obtain ⟨hash, hok⟩ := exists_charHash hcapacity hle key
  have h := isHash_of_ok hcapacity hok
  rw [hok, ← h.neg_iff]
  constructor
  · rintro ⟨_, heq, hnonneg, -⟩
    cases heq
    exact Int.not_lt.mpr hnonneg
  · intro hnonneg
    exact ⟨hash, rfl, Int.not_lt.mp hnonneg, h.upper⟩

/-- A hash below zero becomes a byte above the capacity. -/
theorem isByteIndex_charHash_iff (hcapacity : 0 < capacity) (hle : capacity ≤ 127)
    (key : CString) :
    IsByteIndex capacity (charHash key capacity >>= fun hash => .ok (UInt8.ofInt hash)) ↔
      ¬ Fallen capacity key := by
  obtain ⟨hash, hok⟩ := exists_charHash hcapacity (hle.trans (by decide)) key
  have h := isHash_of_ok hcapacity hok
  have hlower := h.lower
  have hupper := h.upper
  have hbyte : ((UInt8.ofInt hash).toNat : ℤ) = hash % 256 := by
    have hsize : (hash % 2 ^ 8).toNat < 256 := by omega
    rw [UInt8.ofInt, UInt8.toNat_ofNat_of_lt' hsize]
    omega
  have hindex : (UInt8.ofInt hash).toNat < capacity ↔ 0 ≤ hash := by
    rw [hbyte]
    omega
  rw [hok, Outcome.ok_bind, ← h.neg_iff, Int.not_lt, ← hindex]
  constructor
  · rintro ⟨_, heq, hlt⟩
    cases heq
    exact hlt
  · intro hlt
    exact ⟨_, rfl, hlt⟩

end CS
