import StellarBench.Lib.Simulation
import StellarBench.Transport.Carry
import StellarBench.Cluster.Data
import StellarBench.Cluster.Raw

/-!
# Frames in the memory of a connection

`Sends` relates a connection in memory to one over values, and the progress of the
encoder that fills its send buffer.  The control is the same.  The parts of the
frame that the encoder has copied are a prefix of the buffer (`Written`), and the
write that is on its way carries the bytes of the frame (`Conveys`).
-/

namespace StellarBench

open Codec (Stored Sizes frameBytes copyTo copyElesTo)

variable {n : ℕ}

/-- The two blocks of a frame. -/
abbrev Pair := Block (BitVec 64) × Block (BitVec 64)

/-! ## Frames in a buffer -/

/-- A pair of blocks whose frame fits a buffer. -/
structure Pair.Fits (f : Pair) : Prop where
  fullP : f.1.Full
  fullQ : f.2.Full
  nonnegP : 0 ≤ f.1.eleNum
  nonnegQ : 0 ≤ f.2.eleNum
  le : totalLen f.1 f.2 ≤ bufferSize

/-- A buffer that starts with a frame of `f`. -/
def Pair.In (f : Pair) (buf : Bytes) : Prop :=
  ∃ p q : Stored, p.block = f.1 ∧ q.block = f.2 ∧ frameBytes p q <+: buf

namespace Codec.Stored

variable {p q : Stored} {f : Pair} {buf buf' : Bytes}

theorem full_of_block {b : Block (BitVec 64)} (h : p.block = b) (hb : b.Full)
    (h0 : 0 ≤ b.eleNum) : p.Full := by
  subst h
  exact ⟨h0, hb⟩

theorem fullP (hp : p.block = f.1) (hf : f.Fits) : p.Full :=
  full_of_block hp hf.fullP hf.nonnegP

theorem fullQ (hq : q.block = f.2) (hf : f.Fits) : q.Full :=
  full_of_block hq hf.fullQ hf.nonnegQ

theorem frameBytes_length_block (hp : p.block = f.1) (hq : q.block = f.2) (hf : f.Fits) :
    (frameBytes p q).length = StellarBench.totalLen f.1 f.2 := by
  have hP := fullP hp hf
  have hQ := fullQ hq hf
  rw [← hP.totalLen hQ, hP.totalLen_block hQ, hp, hq]

/-- The image of the P block, behind which the header of the Q block stands. -/
theorem image_length_block (hp : p.block = f.1) (hf : f.Fits) :
    p.image.length = structSz + doubleSz * f.1.eleNum.toNat := by
  rw [p.image_length, (fullP hp hf).length, ← hp]
  rfl

/-- The four parts that an encoder copies. -/
def pieces (p q : Stored) : List Bytes := [p.bytes, wordBytes p.arr, q.bytes, wordBytes q.arr]

/-- The first `k` parts are in the buffer. -/
def Written (k : ℕ) (p q : Stored) (buf : Bytes) : Prop := ((pieces p q).take k).flatten <+: buf

theorem written_zero (p q : Stored) (buf : Bytes) : Written 0 p q buf := List.nil_prefix

theorem written_four : Written 4 p q buf ↔ frameBytes p q <+: buf := by
  have hflat : ((pieces p q).take 4).flatten = frameBytes p q := by
    simp [pieces, frameBytes, image]
  rw [Written, hflat]

theorem written_of_slots_eq_zero {pc : SendPc} (h : pc.slots = 0) : Written pc.slots p q buf := by
  rw [h]
  exact written_zero ..

/-- A copy of the next part. -/
theorem Written.next {k off : ℕ} {src : Bytes} (h : Written k p q buf)
    (hsrc : (pieces p q)[k]? = some src) (hoff : ((pieces p q).take k).flatten.length = off)
    (hroom : (frameBytes p q).length ≤ buf.length) :
    ∃ buf', writeAt buf off src = some buf' ∧ buf'.length = buf.length ∧
      Written (k + 1) p q buf' := by
  have htake : ((pieces p q).take (k + 1)).flatten = ((pieces p q).take k).flatten ++ src := by
    rw [List.take_add_one, hsrc, List.flatten_append]
    simp
  have hle : off + src.length ≤ buf.length := by
    have hflat : (pieces p q).flatten = frameBytes p q := by
      simp [pieces, frameBytes, image]
    have hsub := congrArg List.length htake
    have hpre := ((List.take_prefix (k + 1) (pieces p q)).flatten).length_le
    rw [hflat] at hpre
    rw [List.length_append] at hsub
    omega
  simp only [Written, htake]
  exact exists_writeAt h hoff hle

end Codec.Stored

/-! ## The encoder -/

open Codec.Stored

theorem copyElesTo_full {b : Stored} (hb : b.Full) (c : Conn Bytes) (off : ℕ) :
    copyElesTo c off b (Codec.dataSz b.eleNum) = copyTo c off (wordBytes b.arr) := by
  rw [copyElesTo, hb.dataSz, readAt_self, Option.bind_some]

/-- A connection in memory and one over values, and their producer at `pc`. -/
structure Sends (f : Pair) (p q : Stored) (R E : ℤ) (pc : SendPc) (d : Conn (Frame (BitVec 64)))
    (c : Conn Bytes) : Prop where
  forget : c.forget = d.forget
  room : c.client.buffer.length = bufferSize
  written : Written pc.slots p q c.client.buffer
  len : pc = .announce → c.client.bufLen = totalLen f.1 f.2
  conveys : c.Conveys f.In (totalLen f.1 f.2) R E

namespace Sends

variable {f : Pair} {p q : Stored} {R E k : ℤ} {pc : SendPc} {c : Conn Bytes}
  {d : Conn (Frame (BitVec 64))}

theorem ctl (h : Sends f p q R E pc d c) {E : ℤ} (hd : d.Ctl E) : c.Ctl E :=
  hd.of_forget_eq h.forget

theorem counted (h : Sends f p q R E pc d c) : c.counted = d.counted :=
  Conn.counted_of_forget_eq h.forget

/-- With everything announced counted and read, the next frame may be any. -/
theorem of_idle (hforget : c.forget = d.forget) (hroom : c.client.buffer.length = bufferSize)
    (hd : d.Ctl E) (hR : d.counted ≤ R) (hE : E ≤ d.counted) (hpc : pc.encoding = 0) (f : Pair)
    (p q : Stored) : Sends f p q R E pc d c := by
  have hcounted : c.counted = d.counted := Conn.counted_of_forget_eq hforget
  refine ⟨hforget, hroom, written_of_slots_eq_zero (SendPc.slots_eq_zero hpc), fun hann => ?_,
    .of_idle (hd.of_forget_eq hforget) (by omega) (by omega) _ _⟩
  rw [hann] at hpc
  cases hpc

/-- Nothing is copied yet, so the blocks may be any. -/
theorem of_slots (h : Sends f p q R E pc d c) (hpc : pc.slots = 0) (p' q' : Stored) :
    Sends f p' q' R E pc d c :=
  { h with written := written_of_slots_eq_zero hpc }

theorem mono {R' : ℤ} (h : Sends f p q R E pc d c) (hR : R ≤ R') : Sends f p q R' E pc d c :=
  { h with conveys := h.conveys.mono hR }

theorem ack (h : Sends f p q R E pc d c) : Sends f p q R E pc d.ack c.ack where
  forget := by
    have hf := h.forget
    simp only [Conn.forget, Conn.ack, Conn.mk.injEq, ClientContext.mk.injEq,
      ConnContext.mk.injEq] at hf ⊢
    simp only [hf, and_self]
  room := h.room
  written := h.written
  len := h.len
  conveys := h.conveys.ack

/-- The bytes of the frame stay when an RDMA write places it. -/
theorem in_write (hf : f.Fits) {src : Bytes} (h : f.In src) (dst : Bytes) :
    f.In (Region.write (totalLen f.1 f.2) src dst) := by
  obtain ⟨p, q, hp, hq, c, rfl⟩ := h
  refine ⟨p, q, hp, hq, ?_⟩
  rw [← frameBytes_length_block hp hq hf, Region.write, instRegionBytes]
  simp only
  rw [List.take_left' rfl]
  exact List.prefix_append ..

/-- The steps of the network and of the handlers. -/
theorem step (hf : f.Fits) (h : Sends f p q R E pc d c) (hd : d.Ctl E) (a : ConnAct) :
    Option.Rel (fun c d => Sends f p q R E pc d c) (c.step a) (d.step a) := by
  refine System.rel_imp (Conn.step_of_forget_eq h.forget a) fun c' d' hc _ hforget => ?_
  refine ⟨hforget, ?_, ?_, fun hpc => ?_, ?_⟩
  · rw [Conn.client_buffer_step hc]
    exact h.room
  · rw [Conn.client_buffer_step hc]
    exact h.written
  · rw [Conn.client_bufLen_step hc]
    exact h.len hpc
  · exact h.conveys.step (lt_of_le_of_lt hf.le (by norm_num [bufferSize]))
      (fun _ dst hsrc => in_write hf hsrc dst) (h.ctl hd) hc

/-- A copy of the next part, with all earlier frames read. -/
theorem copied (hf : f.Fits) (hp : p.block = f.1) (hq : q.block = f.2)
    (h : Sends f p q R E pc d c) (hE : E ≤ d.counted) (pc' : SendPc) (off : ℕ) (src : Bytes)
    (fill : Frame (BitVec 64) → Frame (BitVec 64)) (hsrc : (pieces p q)[pc.slots]? = some src)
    (hoff : ((pieces p q).take pc.slots).flatten.length = off)
    (hslots : pc'.slots = pc.slots + 1) (hne : pc' ≠ .announce) :
    ∃ e, copyTo c off src = some e ∧ Sends f p q R E pc' (d.modifyBuffer fill) e := by
  have hlen := (frameBytes_length_block hp hq hf).trans_le hf.le
  obtain ⟨buf, hbuf, hroom, hw⟩ := h.written.next hsrc hoff (hlen.trans_eq h.room.symm)
  have hidle : ¬ c.counted < E := by
    rw [h.counted]
    omega
  refine ⟨c.modifyBuffer fun _ => buf, by rw [copyTo, hbuf, Option.map_some], ?_⟩
  exact
    { forget := h.forget
      room := hroom.trans h.room
      written := hslots ▸ hw
      len := fun hann => absurd hann hne
      conveys := { h.conveys with source := fun hlt => absurd hlt hidle } }

theorem setLen (hP : p.Full) (hQ : q.Full) (hp : p.block = f.1) (hq : q.block = f.2)
    (h : Sends f p q R E .setLen d c) (hE : E ≤ d.counted) :
    Sends f p q R E .announce (d.setBufLen (totalLen p.block q.block))
      (c.setBufLen (Codec.totalLen p.toStruct q.toStruct).toNat) where
  forget := by
    have hforget := h.forget
    simp only [Conn.forget, Conn.setBufLen, Conn.mk.injEq, ClientContext.mk.injEq,
      hP.totalLen_block hQ] at hforget ⊢
    simp only [hforget, and_self]
  room := h.room
  written := h.written
  len _ := by
    rw [← hp, ← hq]
    exact hP.totalLen_block hQ
  conveys := { h.conveys with
    source := fun hlt => by
      have hlt : c.counted < E := hlt
      rw [h.counted] at hlt
      omega }

theorem announce (h : Sends f p q R E .announce d c) (hp : p.block = f.1) (hq : q.block = f.2)
    (hd : d.Ctl E) (hR : d.counted ≤ R) (hE : E ≤ d.counted) :
    Sends f p q R (E + 1) .count d.announce c.announce where
  forget := by
    have hforget := h.forget
    simp only [Conn.forget, Conn.announce, Conn.mk.injEq, ClientContext.mk.injEq] at hforget ⊢
    simp only [hforget, and_self]
  room := h.room
  written := written_zero ..
  len := by rintro ⟨⟩
  conveys := by
    refine .announce (h.ctl hd) ?_ ?_ ⟨p, q, hp, hq, written_four.mp h.written⟩ (h.len rfl)
    · rw [h.counted]
      exact hR
    · rw [h.counted]
      exact hE

/-- The steps of an encoder, with all earlier frames read. -/
theorem body (hf : f.Fits) (hp : p.block = f.1) (hq : q.block = f.2)
    (h : Sends f p q R (k + pc.sent) pc d c) (hd : d.Ctl (k + pc.sent)) (hR : d.counted ≤ R)
    (hE : k + pc.sent ≤ d.counted) :
    Option.Rel (fun o r => ∃ e, o = some (r.1, e) ∧ Sends f p q R (k + r.1.sent) r.1 r.2 e)
      (Codec.sendBody (.of p.toStruct q.toStruct) p q c pc)
      (Cluster.sendBody p.block q.block d pc) := by
  have hP := fullP hp hf
  have hQ := fullQ hq hf
  cases pc with
  | headP =>
      obtain ⟨e, he, hs⟩ := h.copied hf hp hq hE .elesP 0 p.bytes (Frame.setPb p.block) rfl rfl rfl
        (by rintro ⟨⟩)
      rw [Codec.sendBody, he]
      exact .some ⟨e, rfl, hs⟩
  | elesP =>
      obtain ⟨e, he, hs⟩ := h.copied hf hp hq hE .headQ structSz (wordBytes p.arr)
        (Frame.setPEles p.block) rfl (by simp [pieces]) rfl (by rintro ⟨⟩)
      rw [Codec.sendBody, Sizes.of, copyElesTo_full hP, he]
      exact .some ⟨e, rfl, hs⟩
  | headQ =>
      have hoff : ((pieces p q).take SendPc.headQ.slots).flatten.length =
          (Sizes.of p.toStruct q.toStruct).pTotal.toNat := by
        refine Eq.trans ?_ hP.blockSz.symm
        simp [pieces, image]
      obtain ⟨e, he, hs⟩ := h.copied hf hp hq hE .elesQ _ q.bytes (Frame.setQb q.block) rfl hoff rfl
        (by rintro ⟨⟩)
      rw [Codec.sendBody, he]
      exact .some ⟨e, rfl, hs⟩
  | elesQ =>
      have hoff : ((pieces p q).take SendPc.elesQ.slots).flatten.length =
          ((Sizes.of p.toStruct q.toStruct).pTotal + BitVec.ofNat 64 structSz).toNat := by
        refine Eq.trans ?_ hP.elesOff.symm
        simp [pieces, image]
        omega
      obtain ⟨e, he, hs⟩ := h.copied hf hp hq hE .setLen _ (wordBytes q.arr)
        (Frame.setQEles q.block) rfl hoff rfl (by rintro ⟨⟩)
      have hread := (copyElesTo_full hQ c _).trans he
      rw [Codec.sendBody]
      refine .some ⟨e, ?_, hs⟩
      exact congrArg (Option.map (SendPc.setLen, ·)) hread
  | setLen => exact .some ⟨_, rfl, setLen hP hQ hp hq h hE⟩
  | announce =>
      refine .some ⟨_, rfl, ?_⟩
      simpa using announce h hp hq hd hR hE
  | test | stamp | count => exact .none

end Sends

/-! ## The decoders -/

namespace Pair.In

variable {f : Pair} {buf : Bytes}

/-- Where the two headers are. -/
theorem parts (h : f.In buf) (hf : f.Fits) : ∃ (p q : Stored) (c : Bytes), p.block = f.1 ∧
    q.block = f.2 ∧ p.Full ∧ q.Full ∧ buf = p.image ++ (q.image ++ c) ∧
    p.image.length = structSz + doubleSz * f.1.eleNum.toNat := by
  obtain ⟨p, q, hp, hq, c, rfl⟩ := h
  refine ⟨p, q, c, hp, hq, fullP hp hf, fullQ hq hf, ?_, image_length_block hp hf⟩
  rw [frameBytes, List.append_assoc]

/-- The P half of the decoder of a worker. -/
theorem recvP (h : f.In buf) (hf : f.Fits) (m : Codec.Chunk) (old : Stored) :
    ∃ p', Codec.recvBlock m buf 0 old = some p' ∧
      p'.block = (Frame.ofBlocks f.1 f.2).workerDecodeP old.block := by
  obtain ⟨p, q, c, hp, -, hP, -, rfl, -⟩ := h.parts hf
  refine ⟨_, Codec.recvBlock_image hP m old (q.image ++ c) (a := []) rfl, ?_⟩
  rw [Codec.recvBlock_refines hP, hp]
  rfl

/-- The Q half, which finds its header from the P header. -/
theorem recvQ (h : f.In buf) (hf : f.Fits) (m : Codec.Chunk) (old : Stored) :
    ∃ x q', Codec.loadInt buf 16 = some x ∧
      Codec.recvBlock m buf (Codec.blockSz x).toNat old = some q' ∧
      q'.block = (Frame.ofBlocks f.1 f.2).workerDecodeQ old.block := by
  obtain ⟨p, q, c, -, hq, hP, hQ, rfl, -⟩ := h.parts hf
  refine ⟨_, _, Codec.loadInt_eleNum p _,
    Codec.recvBlock_image hQ m old c (a := p.image) hP.blockSz.symm, ?_⟩
  rw [Codec.recvBlock_refines hQ, hq]
  rfl

theorem entry_of_toInt {blocks : List Stored} {x : BitVec 32} {i : ℕ} (hx : x.toInt = i) :
    Codec.entry blocks x = blocks[i]? := by
  rw [Codec.entry, hx, if_pos (Int.natCast_nonneg i), Int.toNat_natCast]

/-- A block with its header at `base` is stored in the entry that it names. -/
theorem store {b old : Stored} {blocks : List Stored} {i base : ℕ} {a c : Bytes} (hb : b.Full)
    (hi : b.block.blockId = (i : ℕ)) (ho : blocks[i]? = some old)
    (hroom : b.arr.length ≤ old.arr.length) (ha : a.length = base) :
    ∃ b', Codec.storeBlock (a ++ (b.image ++ c)) base blocks = some (blocks.set i b') ∧
      b'.block = Frame.psDecode b.block.toHeader b.block.payload old.block := by
  have hid : b.blockId.toInt = (i : ℕ) := hi
  have hentry : Codec.entry blocks b.blockId = some old := (entry_of_toInt hid).trans ho
  have hstore := Codec.storeBlock_image hb hentry hroom c ha
  rw [hid, Int.toNat_natCast] at hstore
  exact ⟨_, hstore, Codec.storeBlock_refines hb old⟩

theorem loadInt_blockId {b : Stored} {a c : Bytes} {base : ℕ} (ha : a.length = base) :
    Codec.loadInt (a ++ (b.image ++ c)) base = some b.blockId := by
  rw [Codec.Stored.image, List.append_assoc]
  exact (Codec.headerAt b.toStruct (wordBytes b.arr ++ c) ha).blockId

/-- The P half of the decoder of the server. -/
theorem storeP (h : f.In buf) (hf : f.Fits) {blocks : List Stored} {old : Stored} {i : ℕ}
    (hi : f.1.blockId = (i : ℕ)) (ho : blocks[i]? = some old)
    (hroom : f.1.eles.length ≤ old.arr.length) :
    ∃ x y b, Codec.loadInt buf 0 = some x ∧ x.toInt = (i : ℕ) ∧
      Codec.storeBlock buf 0 blocks = some (blocks.set i b) ∧
      b.block = (Frame.ofBlocks f.1 f.2).psDecodeP old.block ∧
      Codec.loadInt buf 16 = some y ∧
      (Codec.blockSz y).toNat = structSz + doubleSz * f.1.eleNum.toNat := by
  obtain ⟨p, q, c, hp, -, hP, -, rfl, hlen⟩ := h.parts hf
  rw [← hp] at hi hroom
  obtain ⟨b, hstore, hb⟩ := store (a := []) (c := q.image ++ c) hP hi ho hroom rfl
  refine ⟨p.blockId, p.eleNum, b, loadInt_blockId (a := []) rfl, hi, hstore, ?_,
    Codec.loadInt_eleNum p _, hP.blockSz.trans hlen⟩
  rw [hb, hp]
  rfl

/-- The Q half, behind the P block. -/
theorem storeQ (h : f.In buf) (hf : f.Fits) {blocks : List Stored} {old : Stored} {i base : ℕ}
    (hbase : base = structSz + doubleSz * f.1.eleNum.toNat) (hi : f.2.blockId = (i : ℕ))
    (ho : blocks[i]? = some old) (hroom : f.2.eles.length ≤ old.arr.length) :
    ∃ x b, Codec.loadInt buf base = some x ∧ x.toInt = (i : ℕ) ∧
      Codec.storeBlock buf base blocks = some (blocks.set i b) ∧
      b.block = (Frame.ofBlocks f.1 f.2).psDecodeQ old.block := by
  obtain ⟨p, q, c, -, hq, -, hQ, rfl, hlen⟩ := h.parts hf
  rw [← hq] at hi hroom
  obtain ⟨b, hstore, hb⟩ := store (a := p.image) (c := c) hQ hi ho hroom (hlen.trans hbase.symm)
  refine ⟨q.blockId, b, loadInt_blockId (hlen.trans hbase.symm), hi, hstore, ?_⟩
  rw [hb, hq]
  rfl

end Pair.In

end StellarBench
