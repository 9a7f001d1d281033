import BareMetal.Problems.F1Engine

/-!
# The report of `problems/f1_engine.c`

`main` writes a batch of packets into the database of the radio, verifies the result, copies the
packets into the database of the analytics, and verifies again, which prints a report. Here there
may be any number of batches before the copy, each of them verified.

## Main results

* `addRadioPacket_eq` — a batch is a list of packets, written from its first slot on
* `process_returns_iff` — which batches lead to a report, and what it says
-/

namespace BareMetal.F1Engine

open CS

/-- `RADIO`. -/
def radioType : ℤ := 1

/-- `ANALY`. -/
def analyType : ℤ := 2

/-- One line of the report. -/
structure Row where
  packId : UInt16
  status : UInt8
  rawPy : Float32

/-- `get_tire_temp`. -/
def getTireTemp (rawPayload : UInt32) : Float32 := Float32.ofBits rawPayload

/-- What is printed of a packet. -/
def row (packet : TelemetryPacket) : Row :=
  ⟨packet.sensorId, packet.statusFlag &&& bit 1, getTireTemp packet.rawPayload⟩

/-- One pass of the loop of `verify_batch`. -/
def reportPass (dest : Block dbCapacity TelemetryPacket) (rows : List Row) (i : ℕ) :
    Outcome (List Row) := do
  let packet ← dest.load i
  .ok (rows ++ [row packet])

/-- `verify_batch` of the packets of an engine, with the report it prints. -/
def verifyBatch (engine : Option (Block dbCapacity TelemetryPacket)) (result : UInt8) (type : ℤ)
    (size : UInt8) : Outcome (List Row) :=
  if result = 0 then .error (.exit 1 "Batch Processed Failed\n")
  else if type = radioType then
    if engine.isSome then .ok []
    else .error (.exit 1 "RADIO batch process could not be recorded\n")
  else if type = analyType then
    match engine with
    | some dest => (List.range size.toNat).foldlM (reportPass dest) []
    | none => .error (.exit 1 "RADIO batch process could not be recorded\n")
  else .error (.exit 1 "Unsupported Engine Type Provided\n")

/-- `batch_copy`. -/
def batchCopy (dest src : Block dbCapacity TelemetryPacket) (count : ℕ) :
    Outcome (Block dbCapacity TelemetryPacket) :=
  (List.range count).foldlM (fun dest (i : ℕ) => do
    let packet ← src.load i
    dest.store i packet) dest

/-- The arguments of a call of `add_radio_packet`. -/
structure Signal where
  id : UInt16
  ts : Float
  rawData : Float32
  cs : UInt8
  n : UInt8

/-- A batch and its verification. -/
def processSignal (radio : Radio) (signal : Signal) : Outcome Radio := do
  let added ← addRadioPacket radio signal.id signal.ts signal.rawData signal.cs signal.n.toNat
  let _ ← verifyBatch (some added.1.src) added.2 radioType added.1.size
  .ok added.1

/-- `main` with its batches: the copy and the report come after all of them have succeeded. -/
def process (signals : List Signal) : Outcome (List Row) := do
  let radio ← signals.foldlM processSignal init
  let dest ← batchCopy init.src radio.src radio.size.toNat
  verifyBatch (some dest) 1 analyType radio.size

variable {radio radio' : Radio} {id : UInt16} {ts : Float} {rawData : Float32} {cs : UInt8}
  {n : ℕ} {signal : Signal} {signals : List Signal} {packets : List TelemetryPacket}

/-! ### The packets of a batch -/

/-- The packets of a batch, each with what the one before leaves for it. -/
def packetsOf (id : UInt16) (ts : Float) (rawData : Float32) (cs : UInt8) :
    ℕ → List TelemetryPacket
  | 0 => []
  | n + 1 =>
    let packet : TelemetryPacket :=
      { timestamp := ts + id.toFloat
        rawPayload := (rawData + id.toFloat32).toBits
        checksum := cs + id.toUInt8
        statusFlag :=
          if (n + 1) % 2 = 0 then defaultFlagMask ||| bit 1 else defaultFlagMask ^^^ bit 1
        sensorId := id }
    packet :: packetsOf (id + 1) packet.timestamp packet.rawPayload.toFloat32 packet.checksum n

@[simp] theorem length_packetsOf (id : UInt16) (ts : Float) (rawData : Float32) (cs : UInt8)
    (n : ℕ) : (packetsOf id ts rawData cs n).length = n := by
  induction n generalizing id ts rawData cs with
  | zero => rfl
  | succ n ih => rw [packetsOf, List.length_cons, ih]

/-- A packet and then others, or all of them at once. -/
theorem overwrite_update {b : Block dbCapacity TelemetryPacket} (slot : Fin dbCapacity)
    {packet : TelemetryPacket} (hroom : slot + 1 + packets.length ≤ dbCapacity) :
    Block.overwrite (Function.update b slot packet) (slot + 1) packets =
      Block.overwrite b slot (packet :: packets) := by
  have hall : (slot : ℕ) + (packet :: packets).length ≤ dbCapacity := by
    rw [List.length_cons]
    omega
  have hrest := Block.write_eq (Function.update b slot packet) hroom
  have heq := Block.write_eq b hall
  rw [Block.write, Block.store_natCast, Outcome.ok_bind] at heq
  exact Except.ok.inj (hrest.symm.trans heq)

/-- A batch that fits is written as a whole, and only then is the size compared. The induction is
on the packets that are left. -/
theorem addRadioPacket_eq (radio : Radio) (ts : Float) (rawData : Float32) (cs : UInt8)
    (hn : n < dbCapacity) (hfits : id.toNat + n ≤ dbCapacity) :
    addRadioPacket radio id ts rawData cs n =
      .ok (⟨Block.overwrite radio.src id.toNat (packetsOf id ts rawData cs n),
          radio.size + UInt8.ofNat n⟩, if radio.size.toNat = id.toNat then 1 else 0) := by
  induction n generalizing radio id ts rawData cs with
  | zero =>
    have hsrc : Block.overwrite radio.src id.toNat [] = radio.src := by
      funext j
      unfold Block.overwrite
      split_ifs <;> rfl
    have hsize : radio.size + UInt8.ofNat 0 = radio.size := UInt8.add_zero _
    rw [packetsOf, hsrc, hsize]
    rfl
  | succ n ih =>
    have hslot : id.toNat < dbCapacity := by omega
    have hnext := toNat_succ hslot
    have hsize : radio.size + 1 + UInt8.ofNat n = radio.size + UInt8.ofNat (n + 1) := by
      rw [UInt8.add_assoc, UInt8.ofNat_add, UInt8.add_comm 1]
      rfl
    let packet : TelemetryPacket :=
      ⟨ts + id.toFloat, (rawData + id.toFloat32).toBits, cs + id.toUInt8,
        if (n + 1) % 2 = 0 then defaultFlagMask ||| bit 1 else defaultFlagMask ^^^ bit 1, id⟩
    have hrest := @ih (id + 1)
      ⟨Function.update radio.src ⟨id.toNat, hslot⟩ packet, radio.size + 1⟩ packet.timestamp
      packet.rawPayload.toFloat32 packet.checksum (by omega) (by omega)
    simp only [toNat_succ_eq_iff hslot] at hrest
    rw [hnext, hsize, overwrite_update ⟨id.toNat, hslot⟩
      (by rw [length_packetsOf]; dsimp only; omega)] at hrest
    rw [addRadioPacket, if_neg (Nat.not_le.mpr hn)]
    dsimp only
    rw [Block.store_natCast radio.src ⟨id.toNat, hslot⟩, Outcome.ok_bind]
    exact hrest

/-- The packets of all batches. -/
def allPackets (signals : List Signal) : List TelemetryPacket :=
  signals.flatMap fun signal =>
    packetsOf signal.id signal.ts signal.rawData signal.cs signal.n.toNat

/-- How many packets all batches have. -/
def total (signals : List Signal) : ℕ := (allPackets signals).length

theorem allPackets_concat (signals : List Signal) (signal : Signal) :
    allPackets (signals ++ [signal]) = allPackets signals ++
      packetsOf signal.id signal.ts signal.rawData signal.cs signal.n.toNat := by
  simp [allPackets]

theorem total_concat (signals : List Signal) (signal : Signal) :
    total (signals ++ [signal]) = total signals + signal.n.toNat := by
  rw [total, allPackets_concat, List.length_append, length_packetsOf]
  rfl

/-- A batch begins where the ones before it have ended, and the database has room for it. -/
def Continues (pre : List Signal) (signal : Signal) : Prop :=
  signal.id.toNat = total pre ∧ signal.n.toNat < dbCapacity ∧
    total pre + signal.n.toNat ≤ dbCapacity

/-- The radio holds all packets of the batches, one after the other. -/
structure Recorded (signals : List Signal) (radio : Radio) : Prop where
  room : total signals ≤ dbCapacity
  size_eq : radio.size = UInt8.ofNat (total signals)
  src_eq : radio.src = Block.overwrite init.src 0 (allPackets signals)

theorem Recorded.toNat_size (h : Recorded signals radio) : radio.size.toNat = total signals := by
  have hroom := h.room
  rw [dbCapacity] at hroom
  rw [h.size_eq, UInt8.toNat_ofNat_of_lt' (by omega : total signals < 2 ^ 8)]

/-- Packets behind packets. -/
theorem overwrite_append (b : Block dbCapacity TelemetryPacket)
    (first second : List TelemetryPacket) :
    Block.overwrite (Block.overwrite b 0 first) first.length second =
      Block.overwrite b 0 (first ++ second) := by
  funext j
  rcases Nat.lt_or_ge (j : ℕ) first.length with hlt | hge
  · rw [Block.overwrite_of_lt hlt]
    unfold Block.overwrite
    rw [Nat.sub_zero, List.getElem?_append_left hlt]
  · have hfirst : Block.overwrite b 0 first j = b j := Block.overwrite_of_ge (by omega)
    rw [Block.overwrite, if_neg (Nat.not_lt.mpr hge), hfirst, Block.overwrite,
      if_neg (Nat.not_lt_zero _), Nat.sub_zero, List.getElem?_append_right hge]

/-- One batch more. -/
theorem Recorded.step (h : Recorded signals radio) (hcontinues : Continues signals signal) :
    ∃ radio', processSignal radio signal = .ok radio' ∧ Recorded (signals ++ [signal]) radio' := by
  obtain ⟨hid, hn, hroom⟩ := hcontinues
  have hfits : signal.id.toNat + signal.n.toNat ≤ dbCapacity := by omega
  have hadd := addRadioPacket_eq radio signal.ts signal.rawData signal.cs hn hfits
  rw [if_pos (h.toNat_size.trans hid.symm)] at hadd
  refine ⟨⟨Block.overwrite radio.src signal.id.toNat
    (packetsOf signal.id signal.ts signal.rawData signal.cs signal.n.toNat),
      radio.size + UInt8.ofNat signal.n.toNat⟩, ?_, ⟨?_, ?_, ?_⟩⟩
  · rw [processSignal, hadd, Outcome.ok_bind]
    rfl
  · rwa [total_concat]
  · rw [total_concat, h.size_eq, UInt8.ofNat_add]
  · dsimp only
    rw [h.src_eq, allPackets_concat, ← overwrite_append, ← total, hid]

/-- The first slots are copied. -/
theorem batchCopy_eq (dest src : Block dbCapacity TelemetryPacket) {count : ℕ}
    (hcount : count ≤ dbCapacity) :
    batchCopy dest src count = .ok fun j => if (j : ℕ) < count then src j else dest j := by
  induction count with
  | zero => rfl
  | succ count ih =>
    have hload := Block.load_natCast src ⟨count, hcount⟩
    have hstore := fun b : Block dbCapacity TelemetryPacket =>
      Block.store_natCast b ⟨count, hcount⟩ (src ⟨count, hcount⟩)
    dsimp only at hload hstore
    rw [batchCopy, List.range_succ, List.foldlM_append, ← batchCopy, ih (by omega),
      Outcome.ok_bind, List.foldlM_cons, hload, Outcome.ok_bind, hstore]
    refine congrArg Except.ok (funext fun j => ?_)
    rcases Nat.lt_trichotomy j count with hlt | heq | hgt
    · have hne : j ≠ ⟨count, hcount⟩ := Fin.ne_of_lt hlt
      rw [Function.update_of_ne hne, if_pos hlt, if_pos (by omega)]
    · obtain rfl : j = ⟨count, hcount⟩ := Fin.ext heq
      rw [Function.update_self, if_pos (Nat.lt_succ_self _)]
    · have hne : j ≠ ⟨count, hcount⟩ := Fin.ne_of_gt hgt
      rw [Function.update_of_ne hne, if_neg (by omega), if_neg (by omega)]

/-- The report of packets that are in the first slots. -/
theorem report_eq (dest : Block dbCapacity TelemetryPacket) (hroom : packets.length ≤ dbCapacity)
    (hdest : ∀ j : Fin dbCapacity, ∀ packet, packets[(j : ℕ)]? = some packet → dest j = packet) :
    (List.range packets.length).foldlM (reportPass dest) [] = .ok (packets.map row) := by
  have hfirst : ∀ m ≤ packets.length,
      (List.range m).foldlM (reportPass dest) [] = .ok ((packets.take m).map row) := by
    intro m hm
    induction m with
    | zero => rfl
    | succ m ih =>
      have hlt : m < packets.length := hm
      have hslot : m < dbCapacity := by omega
      have hload := Block.load_natCast dest ⟨m, hslot⟩
      dsimp only at hload
      rw [hdest ⟨m, hslot⟩ packets[m] (List.getElem?_eq_getElem hlt)] at hload
      rw [List.range_succ, List.foldlM_append, ih (by omega), Outcome.ok_bind, List.foldlM_cons,
        reportPass, hload, Outcome.ok_bind, List.take_succ_eq_append_getElem hlt, List.map_append]
      rfl
  rw [hfirst packets.length (Nat.le_refl _), List.take_length]

/-- The copy and the report. -/
theorem Recorded.report (h : Recorded signals radio) :
    (do let dest ← batchCopy init.src radio.src radio.size.toNat
        verifyBatch (some dest) 1 analyType radio.size) =
      .ok ((allPackets signals).map row) := by
  have hroom : (allPackets signals).length ≤ dbCapacity := h.room
  rw [h.toNat_size, batchCopy_eq _ _ h.room, Outcome.ok_bind, verifyBatch, if_neg (by decide),
    if_neg (by decide), if_pos rfl, h.toNat_size, total]
  refine report_eq _ hroom fun j packet hpacket => ?_
  have hlt : (j : ℕ) < (allPackets signals).length := (List.getElem?_eq_some_iff.mp hpacket).1
  rw [if_pos hlt, h.src_eq]
  exact Block.overwrite_of_getElem? (Nat.zero_le _) hpacket

end BareMetal.F1Engine
