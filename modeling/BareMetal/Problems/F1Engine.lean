import BareMetal.CS.Block
import BareMetal.CS.Calls
import Mathlib.Order.Basic

/-!
# The telemetry batches of `problems/f1_engine.c`

`add_radio_packet` writes a batch of packets one after the other, from a slot on that its
caller names, and counts them. It is a recursion on the number of packets that are left. The
guard looks at that number only. Whether the batch has begun where the one before has ended is
tested at the bottom of the recursion, behind all writes.

## Main results

* `addRadioPacket_spec`, `addRadioPacket_outOfBounds` — a batch that fits, and one that does not
* `inDatabase_iff` — a sequence of batches stays in the database exactly when each of them fits
  and all of them together are no more packets than it has slots
* `atomic_iff` — a batch that fails changes nothing exactly when it is empty or does not fail
-/

namespace BareMetal.F1Engine

open CS

/-- `DB_CAPACITY`. -/
def dbCapacity : ℕ := 8

/-- `BIT`. -/
def bit (x : UInt8) : UInt8 := 1 <<< x

/-- `DEFAULT_FLAG_MASK`. -/
def defaultFlagMask : UInt8 := 0x0F

/-- `TelemetryPacket`. -/
structure TelemetryPacket where
  timestamp : Float
  rawPayload : UInt32
  checksum : UInt8
  statusFlag : UInt8
  sensorId : UInt16

/-- `Radio`. -/
structure Radio where
  src : Block dbCapacity TelemetryPacket
  size : UInt8

/-- `init` of a radio: `calloc` leaves zeros. -/
def init : Radio := ⟨fun _ => ⟨0, 0, 0, 0, 0⟩, 0⟩

/-- `add_radio_packet`. The payload is kept as the bits of a `float`, and the next packet takes
these bits for the value of an integer. -/
def addRadioPacket (radio : Radio) (id : UInt16) (ts : Float) (rawData : Float32) (cs : UInt8) :
    ℕ → Outcome (Radio × UInt8)
  | 0 => .ok (radio, if radio.size.toNat = id.toNat then 1 else 0)
  | n + 1 =>
    if n + 1 ≥ dbCapacity then
      .error (.exit 1 "The radio signal batch process size is too big\n")
    else do
      let packet : TelemetryPacket :=
        { timestamp := ts + id.toFloat
          rawPayload := (rawData + id.toFloat32).toBits
          checksum := cs + id.toUInt8
          statusFlag :=
            if (n + 1) % 2 = 0 then defaultFlagMask ||| bit 1 else defaultFlagMask ^^^ bit 1
          sensorId := id }
      let src ← radio.src.store id.toNat packet
      addRadioPacket ⟨src, radio.size + 1⟩ (id + 1) packet.timestamp packet.rawPayload.toFloat32
        packet.checksum n

/-- The arguments of a call that the guard accepts. -/
structure Batch where
  id : UInt16
  ts : Float
  rawData : Float32
  cs : UInt8
  n : ℕ
  accepted : n < dbCapacity

/-- A call of `add_radio_packet`, whatever it returns. -/
def addBatch (radio : Radio) (batch : Batch) : Outcome Radio := do
  let (radio, _) ← addRadioPacket radio batch.id batch.ts batch.rawData batch.cs batch.n
  .ok radio

/-- No call writes outside the database, and the size stays below the capacity or at it. -/
def InDatabase (batches : List Batch) : Prop :=
  AllCalls (fun pre batch => ∃ radio radio', pre.foldlM addBatch init = .ok radio ∧
    addBatch radio batch = .ok radio' ∧ radio'.size.toNat ≤ dbCapacity) batches

/-- The packets of a batch have slots. -/
def Batch.Fits (batch : Batch) : Prop := batch.n = 0 ∨ batch.id.toNat + batch.n ≤ dbCapacity

/-- The packets of all batches. -/
def packets (batches : List Batch) : ℕ := batches.foldl (fun total batch => total + batch.n) 0

/-- A call that returns 0 has changed nothing. After one that returns 1 the size has grown by
the number of packets, and they are in the slots from `id` on. -/
def Atomic (radio : Radio) (id : UInt16) (n : ℕ) : Outcome (Radio × UInt8) → Prop
  | .ok (radio', result) =>
    (result = 0 → radio' = radio) ∧
      (result = 1 → radio'.size.toNat = radio.size.toNat + n ∧
        ∀ i : Fin dbCapacity, id.toNat ≤ i → i < id.toNat + n →
          (radio'.src i).sensorId.toNat = i)
  | .error _ => False

variable {radio radio' : Radio} {id : UInt16} {ts : Float} {rawData : Float32} {cs : UInt8}
  {n : ℕ} {batch : Batch} {batches : List Batch}

/-! ### One batch -/

/-- What a batch that fits leaves. -/
structure Added (radio : Radio) (id : UInt16) (n : ℕ) (radio' : Radio) : Prop where
  size_eq : radio'.size = radio.size + UInt8.ofNat n
  written : ∀ i : Fin dbCapacity, id.toNat ≤ i → i < id.toNat + n →
    (radio'.src i).sensorId.toNat = i
  frame : ∀ i : Fin dbCapacity, ¬ (id.toNat ≤ i ∧ i < id.toNat + n) → radio'.src i = radio.src i

/-- The slot of the next packet. -/
theorem toNat_succ (hid : id.toNat < dbCapacity) : (id + 1).toNat = id.toNat + 1 := by
  have hsmall : id.toNat + 1 < 2 ^ 16 := Nat.lt_of_le_of_lt hid (by decide)
  rw [UInt16.toNat_add]
  exact Nat.mod_eq_of_lt hsmall

theorem added_zero (radio : Radio) (id : UInt16) : Added radio id 0 radio where
  size_eq := (UInt8.add_zero _).symm
  written _ hle hlt := absurd hle (Nat.not_le.mpr hlt)
  frame _ _ := rfl

/-- One packet, and then the others. -/
theorem Added.of_update {slot : Fin dbCapacity} {packet : TelemetryPacket}
    (h : Added ⟨Function.update radio.src slot packet, radio.size + 1⟩ (id + 1) n radio')
    (hslot : (slot : ℕ) = id.toNat) (hpacket : packet.sensorId = id) :
    Added radio id (n + 1) radio' := by
  have hnext : (id + 1).toNat = id.toNat + 1 := toNat_succ (hslot ▸ slot.isLt)
  have hsize := h.size_eq
  have hwritten := h.written
  have hframe := h.frame
  rw [hnext] at hwritten hframe
  dsimp only at hsize hframe
  refine ⟨?_, fun i hle hlt => ?_, fun i hout => ?_⟩
  · rw [hsize, UInt8.add_assoc, UInt8.ofNat_add, UInt8.add_comm 1]
    rfl
  · by_cases hfirst : (i : ℕ) = id.toNat
    · -- the packets after the first one are in other slots
      obtain rfl : i = slot := Fin.ext (hfirst.trans hslot.symm)
      rw [hframe i (by omega), Function.update_self, hpacket, hslot]
    · exact hwritten i (by omega) (by omega)
  · have hne : i ≠ slot := by
      rintro rfl
      omega
    rw [hframe i (by omega), Function.update_of_ne hne]

/-- The last test does not change when a packet is counted and the slot moves on. -/
theorem toNat_succ_eq_iff {size : UInt8} (hid : id.toNat < dbCapacity) :
    (size + 1).toNat = (id + 1).toNat ↔ size.toNat = id.toNat := by
  have hsize := size.toNat_lt
  have hadd : (size + 1).toNat = (size.toNat + 1) % 2 ^ 8 := UInt8.toNat_add ..
  rw [toNat_succ hid, hadd]
  rw [dbCapacity] at hid
  omega

/-- A batch that fits is written and counted, and only then is the size compared. The induction
is on the packets that are left. -/
theorem addRadioPacket_spec (radio : Radio) (ts : Float) (rawData : Float32) (cs : UInt8)
    (hn : n < dbCapacity) (hfits : id.toNat + n ≤ dbCapacity) :
    ∃ radio', addRadioPacket radio id ts rawData cs n =
        .ok (radio', if radio.size.toNat = id.toNat then 1 else 0) ∧ Added radio id n radio' := by
  induction n generalizing radio id ts rawData cs with
  | zero => exact ⟨radio, rfl, added_zero radio id⟩
  | succ n ih =>
    have hslot : id.toNat < dbCapacity := by omega
    have hnext := toNat_succ hslot
    -- the radio that the recursive call gets
    let packet : TelemetryPacket :=
      ⟨ts + id.toFloat, (rawData + id.toFloat32).toBits, cs + id.toUInt8,
        if (n + 1) % 2 = 0 then defaultFlagMask ||| bit 1 else defaultFlagMask ^^^ bit 1, id⟩
    let next : Radio := ⟨Function.update radio.src ⟨id.toNat, hslot⟩ packet, radio.size + 1⟩
    obtain ⟨radio', hok, hadded⟩ : ∃ radio', addRadioPacket next (id + 1) packet.timestamp
        packet.rawPayload.toFloat32 packet.checksum n =
          .ok (radio', if next.size.toNat = (id + 1).toNat then 1 else 0) ∧
        Added next (id + 1) n radio' := ih _ _ _ _ (by omega) (by omega)
    refine ⟨radio', ?_, hadded.of_update rfl rfl⟩
    rw [addRadioPacket, if_neg (Nat.not_le.mpr hn)]
    dsimp only
    rw [Block.store_natCast radio.src ⟨id.toNat, hslot⟩, Outcome.ok_bind]
    simp only [next, toNat_succ_eq_iff hslot] at hok
    exact hok

/-- A batch that does not fit is written up to the end of the database, or begins behind it. -/
theorem addRadioPacket_outOfBounds (hpos : 0 < n) (hn : n < dbCapacity)
    (hlong : dbCapacity < id.toNat + n) :
    addRadioPacket radio id ts rawData cs n =
      .error (.outOfBounds (max id.toNat dbCapacity : ℕ)) := by
  induction n generalizing radio id ts rawData cs with
  | zero => exact absurd hpos (Nat.lt_irrefl 0)
  | succ n ih =>
    rw [addRadioPacket, if_neg (Nat.not_le.mpr hn)]
    dsimp only
    by_cases hslot : id.toNat < dbCapacity
    · have hnext := toNat_succ hslot
      rw [Block.store_natCast radio.src ⟨id.toNat, hslot⟩, Outcome.ok_bind,
        ih (by omega) (by omega) (by omega), hnext, Nat.max_eq_right hslot,
        Nat.max_eq_right (Nat.le_of_lt hslot)]
    · have hstore : ∀ packet, radio.src.store id.toNat packet = .error (.outOfBounds id.toNat) := by
        intro packet
        exact dif_neg (by omega)
      rw [hstore, Outcome.error_bind, Nat.max_eq_left (Nat.not_lt.mp hslot)]

/-! ### Sequences of batches -/

theorem packets_concat (batches : List Batch) (batch : Batch) :
    packets (batches ++ [batch]) = packets batches + batch.n := by
  simp [packets]

/-- A batch that fits. -/
theorem Batch.Fits.exists_addBatch (h : batch.Fits) (radio : Radio) :
    ∃ radio', addBatch radio batch = .ok radio' ∧ Added radio batch.id batch.n radio' := by
  unfold addBatch
  rcases h with hnone | hfits
  · rw [hnone]
    exact ⟨radio, rfl, added_zero radio batch.id⟩
  · obtain ⟨radio', hok, hadded⟩ :=
      addRadioPacket_spec radio batch.ts batch.rawData batch.cs batch.accepted hfits
    refine ⟨radio', ?_, hadded⟩
    rw [hok]
    rfl

/-- A batch that returns has had slots. -/
theorem Batch.fits_of_addBatch (hok : addBatch radio batch = .ok radio') : batch.Fits := by
  by_contra hlong
  obtain ⟨hsome, hover⟩ := not_or.mp hlong
  rw [addBatch, addRadioPacket_outOfBounds (Nat.pos_of_ne_zero hsome) batch.accepted
    (Nat.not_le.mp hover)] at hok
  cases hok

/-- The size as a number. -/
theorem Added.toNat_size (h : Added radio id n radio') (hn : n < dbCapacity)
    (hsize : radio.size.toNat ≤ dbCapacity) : radio'.size.toNat = radio.size.toNat + n := by
  rw [dbCapacity] at hn hsize
  rw [h.size_eq, UInt8.toNat_add, UInt8.toNat_ofNat_of_lt' (by omega : n < 2 ^ 8)]
  exact Nat.mod_eq_of_lt (by omega)

/-- The condition on one call. -/
def Room (pre : List Batch) (batch : Batch) : Prop :=
  batch.Fits ∧ packets pre + batch.n ≤ dbCapacity

theorem exists_foldlM (hroom : AllCalls Room batches) :
    ∃ radio, batches.foldlM addBatch init = .ok radio ∧ radio.size.toNat = packets batches ∧
      packets batches ≤ dbCapacity := by
  induction batches using List.reverseRecOn with
  | nil => exact ⟨init, rfl, rfl, Nat.zero_le _⟩
  | append_singleton batches batch ih =>
    obtain ⟨hbefore, hfits, htotal⟩ := allCalls_concat.mp hroom
    obtain ⟨radio, hok, hsize, hle⟩ := ih hbefore
    obtain ⟨radio', hok', hadded⟩ := hfits.exists_addBatch radio
    refine ⟨radio', ?_, ?_, ?_⟩
    · rw [List.foldlM_append, hok, Outcome.ok_bind, List.foldlM_cons, hok']
      rfl
    · rw [packets_concat, hadded.toNat_size batch.accepted (hsize.trans_le hle), hsize]
    · rwa [packets_concat]

theorem allCalls_room_iff :
    AllCalls Room batches ↔ (∀ batch ∈ batches, batch.Fits) ∧ packets batches ≤ dbCapacity := by
  refine allCalls_iff_forall_and (Q := fun batches => packets batches ≤ dbCapacity)
    (Nat.zero_le _) (fun pre batch htotal => ?_) fun pre batch _ => ?_
  · rw [packets_concat] at htotal
    exact Nat.le_of_add_right_le htotal
  · rw [packets_concat]
    rfl

/-- Every sequence of batches stays in the database exactly when each of them ends in it and
all of them together have no more packets than there are slots. -/
theorem inDatabase_iff (batches : List Batch) :
    InDatabase batches ↔ (∀ batch ∈ batches, batch.Fits) ∧ packets batches ≤ dbCapacity := by
  rw [← allCalls_room_iff]
  refine allCalls_congr fun pre batch hbefore => ?_
  -- the batches before have had room, so the size is the number of their packets
  obtain ⟨radio, hok, hsize, hle⟩ := exists_foldlM hbefore
  constructor
  · rintro ⟨radio₁, radio', hok₁, hok', hsize'⟩
    cases hok.symm.trans hok₁
    have hfits := Batch.fits_of_addBatch hok'
    obtain ⟨radio₂, hok₂, hadded⟩ := hfits.exists_addBatch radio
    cases hok'.symm.trans hok₂
    rw [hadded.toNat_size batch.accepted (hsize.trans_le hle), hsize] at hsize'
    exact ⟨hfits, hsize'⟩
  · rintro ⟨hfits, htotal⟩
    obtain ⟨radio', hok', hadded⟩ := hfits.exists_addBatch radio
    refine ⟨radio, radio', hok, hok', ?_⟩
    rwa [hadded.toNat_size batch.accepted (hsize.trans_le hle), hsize]

/-- One packet for a slot behind the last one. -/
def behind : Batch := ⟨8, 10, 2, 1, 1, by decide⟩

/-- The batch of `main`. -/
def mainBatch : Batch := ⟨0, 10, 2, 1, 7, by decide⟩

/-- The guard accepts a packet behind the database, and a second batch from the first slot on,
which makes the size 14. -/
theorem batches_leave_database :
    ¬ InDatabase [behind] ∧ ¬ InDatabase [mainBatch, mainBatch] := by
  constructor
  · intro h
    obtain ⟨radio, radio', -, hok, -⟩ := h [] behind [] rfl
    exact absurd (Batch.fits_of_addBatch hok) (by unfold Batch.Fits; decide)
  · intro h
    obtain ⟨radio, radio', hok, hok', hsize⟩ := h [mainBatch] mainBatch [] rfl
    have hfits : mainBatch.Fits := by
      unfold Batch.Fits
      decide
    obtain ⟨radio₁, hok₁, hadded⟩ := hfits.exists_addBatch init
    obtain ⟨radio₂, hok₂, hadded'⟩ := hfits.exists_addBatch radio
    have hfirst : [mainBatch].foldlM addBatch init = .ok radio₁ := by
      rw [List.foldlM_cons, hok₁]
      rfl
    cases hfirst.symm.trans hok
    cases hok₂.symm.trans hok'
    rw [hadded'.size_eq, hadded.size_eq] at hsize
    exact absurd hsize (by decide)

/-! ### Batches that fail -/

/-- A call whose batch ends in the database is atomic exactly when the batch is empty or begins
where the packets end. -/
theorem atomic_iff (radio : Radio) (ts : Float) (rawData : Float32) (cs : UInt8)
    (hfits : id.toNat + n ≤ dbCapacity) (hn : n < dbCapacity) :
    Atomic radio id n (addRadioPacket radio id ts rawData cs n) ↔
      n = 0 ∨ radio.size.toNat = id.toNat := by
  obtain ⟨radio', hok, hadded⟩ := addRadioPacket_spec radio ts rawData cs hn hfits
  rw [hok, Atomic]
  by_cases hsize : radio.size.toNat = id.toNat
  · rw [if_pos hsize]
    have hgrown := hadded.toNat_size hn (by omega)
    exact iff_of_true ⟨fun hfailed => absurd hfailed (by decide),
      fun _ => ⟨hgrown, hadded.written⟩⟩ (Or.inr hsize)
  · rw [if_neg hsize]
    rcases Nat.eq_zero_or_pos n with rfl | hpos
    · cases hok
      exact iff_of_true ⟨fun _ => rfl, fun hdone => absurd hdone (by decide)⟩ (Or.inl rfl)
    · refine iff_of_false (fun hatomic => ?_) (not_or.mpr ⟨Nat.ne_of_gt hpos, hsize⟩)
      -- the packets are counted although the batch has failed
      have hsame := congrArg (fun radio => radio.size.toNat) (hatomic.1 rfl)
      have hlt := radio.size.toNat_lt
      rw [dbCapacity] at hn
      rw [hadded.size_eq, UInt8.toNat_add, UInt8.toNat_ofNat_of_lt' (by omega : n < 2 ^ 8)] at hsame
      omega

/-- The batch of `main` on a new radio. -/
theorem atomic_main :
    Atomic init 0 7 (addRadioPacket init 0 10 2 1 7) ↔
      (7 : ℕ) = 0 ∨ init.size.toNat = (0 : UInt16).toNat :=
  atomic_iff init 10 2 1 (by decide) (by decide)

/-- A second batch for the first slot fails. It has been written over the first one, and it is
counted. -/
theorem failed_batch_counted :
    ∃ radio radio', addRadioPacket init 0 10 2 1 1 = .ok (radio, 1) ∧
      addRadioPacket radio 0 10 2 1 1 = .ok (radio', 0) ∧ radio.size = 1 ∧ radio'.size = 2 ∧
      ¬ Atomic radio 0 1 (addRadioPacket radio 0 10 2 1 1) := by
  have hfits : (0 : UInt16).toNat + 1 ≤ dbCapacity := by decide
  obtain ⟨radio, hok, hadded⟩ := addRadioPacket_spec init 10 2 1 (by decide) hfits
  obtain ⟨radio', hok', hadded'⟩ := addRadioPacket_spec radio 10 2 1 (by decide) hfits
  have hsize : radio.size = 1 := hadded.size_eq
  have hsize' : radio'.size = 2 := by
    rw [hadded'.size_eq, hsize]
    rfl
  rw [hsize] at hok'
  refine ⟨radio, radio', hok, hok', hsize, hsize', ?_⟩
  rw [hok']
  rintro ⟨hunchanged, -⟩
  rw [hunchanged rfl, hsize] at hsize'
  exact absurd hsize' (by decide)

end BareMetal.F1Engine
