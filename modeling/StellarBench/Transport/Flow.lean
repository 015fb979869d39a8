import StellarBench.Transport.Token

/-!
# A producer and a consumer on one connection

The producer is the loop of `test_send` with any content and any length: it
starts a new frame when `buf_write_counter` is the number of frames it has made
ready.  The consumer is the receive loop that `test_recv`, `ps` and `worker` share.
Buffers are bytes at offsets.  `frames` and `got` are histories: the frames made
ready, and what the consumer found when it read.
-/

namespace StellarBench

variable {β : Type}

/-- Where the producer stands: at its test, between its stores, or before the
increment of its counter. -/
inductive ProducerPc where
  | test | fill | count
deriving DecidableEq, Repr

/-- Where the consumer stands: at its test, before it reads, before the increment
of its counter, or before `can_recv = true`. -/
inductive ConsumerPc where
  | test | read | count | flag
deriving DecidableEq, Repr

/-- A connection with its producer and its consumer. -/
structure Flow (β : Type) where
  conn : Conn (ℕ → β)
  made : ℤ
  sendPc : ProducerPc
  frames : List (List β)
  reads : ℤ
  recvPc : ConsumerPc
  got : List (List β)

/-- The possible next movers. -/
inductive FlowAct (β : Type) where
  | produce
  | store (k : ℕ) (b : β)
  | setLen (len : ℕ)
  | consume
  | conn (a : ConnAct)
deriving DecidableEq

/-- The first bytes of a buffer. -/
def readFrame (len : ℕ) (buf : ℕ → β) : List β := (List.range len).map buf

/-- What is in the memory of a connection before the first frame. -/
structure FlowSetup (β : Type) where
  buffer : ℕ → β
  recvBuffer : ℕ → β
  bufLen : ℕ
  mr : Mr
  canRecv : Bool
  bufLen_le : bufLen ≤ bufferSize

namespace Flow

/-- The next step of a flow. -/
def step (s : Flow β) : FlowAct β → Option (Flow β)
  | .produce =>
      match s.sendPc with
      | .test =>
          if s.conn.client.bufWriteCounter = s.made then some { s with sendPc := .fill } else none
      | .fill => some { s with
          conn := s.conn.announce, sendPc := .count,
          frames := s.frames ++ [readFrame s.conn.client.bufLen s.conn.client.buffer] }
      | .count => some { s with made := s.made + 1, sendPc := .test }
  | .store k b =>
      if s.sendPc = .fill ∧ k < bufferSize then
        some { s with conn := s.conn.modifyBuffer fun buf => Function.update buf k b }
      else none
  | .setLen len =>
      if s.sendPc = .fill ∧ len ≤ bufferSize then some { s with conn := s.conn.setBufLen len }
      else none
  | .consume =>
      match s.recvPc with
      | .test =>
          if s.reads ≥ s.conn.server.bufRecvCounter then none else some { s with recvPc := .read }
      | .read => some { s with
          got := s.got ++ [readFrame s.conn.server.bufLen s.conn.server.buffer], recvPc := .count }
      | .count => some { s with reads := s.reads + 1, recvPc := .flag }
      | .flag => some { s with conn := s.conn.ack, recvPc := .test }
  | .conn a => (s.conn.step a).map fun c => { s with conn := c }

/-- All a step of a flow can be. -/
inductive Step (s : Flow β) : FlowAct β → Flow β → Prop where
  | test : s.sendPc = .test → s.conn.client.bufWriteCounter = s.made →
      s.Step .produce { s with sendPc := .fill }
  | announce : s.sendPc = .fill → s.Step .produce { s with
      conn := s.conn.announce, sendPc := .count,
      frames := s.frames ++ [readFrame s.conn.client.bufLen s.conn.client.buffer] }
  | made : s.sendPc = .count → s.Step .produce { s with made := s.made + 1, sendPc := .test }
  | store {k b} : s.sendPc = .fill → k < bufferSize → s.Step (.store k b)
      { s with conn := s.conn.modifyBuffer fun buf => Function.update buf k b }
  | setLen {len} : s.sendPc = .fill → len ≤ bufferSize →
      s.Step (.setLen len) { s with conn := s.conn.setBufLen len }
  | check : s.recvPc = .test → s.reads < s.conn.counted →
      s.Step .consume { s with recvPc := .read }
  | read : s.recvPc = .read → s.Step .consume { s with
      got := s.got ++ [readFrame s.conn.server.bufLen s.conn.server.buffer], recvPc := .count }
  | count : s.recvPc = .count → s.Step .consume { s with reads := s.reads + 1, recvPc := .flag }
  | flag : s.recvPc = .flag → s.Step .consume { s with conn := s.conn.ack, recvPc := .test }
  | conn {a c} : s.conn.step a = some c → s.Step (.conn a) { s with conn := c }

theorem step_cases {s t : Flow β} {a : FlowAct β} (h : s.step a = some t) : s.Step a t := by
  cases a with
  | produce =>
      cases hpc : s.sendPc with
      | test =>
          simp only [step, hpc] at h
          split at h
          next heq => exact Option.some.inj h ▸ .test hpc heq
          next => cases h
      | fill =>
          simp only [step, hpc] at h
          exact Option.some.inj h ▸ .announce hpc
      | count =>
          simp only [step, hpc] at h
          exact Option.some.inj h ▸ .made hpc
  | store k b =>
      simp only [step] at h
      split at h
      next hc => exact Option.some.inj h ▸ .store hc.1 hc.2
      next => cases h
  | setLen len =>
      simp only [step] at h
      split at h
      next hc => exact Option.some.inj h ▸ .setLen hc.1 hc.2
      next => cases h
  | consume =>
      cases hpc : s.recvPc with
      | test =>
          simp only [step, hpc] at h
          split at h
          next => cases h
          next hlt => exact Option.some.inj h ▸ .check hpc (not_le.mp hlt)
      | read =>
          simp only [step, hpc] at h
          exact Option.some.inj h ▸ .read hpc
      | count =>
          simp only [step, hpc] at h
          exact Option.some.inj h ▸ .count hpc
      | flag =>
          simp only [step, hpc] at h
          exact Option.some.inj h ▸ .flag hpc
  | conn a =>
      obtain ⟨c, hc, rfl⟩ := Option.map_eq_some_iff.mp h
      exact .conn hc

end Flow

/-- The flow before its first step. -/
def FlowSetup.start (f : FlowSetup β) : Flow β where
  conn := .established f.buffer f.recvBuffer f.bufLen f.mr f.canRecv
  made := 0
  sendPc := .test
  frames := []
  reads := 0
  recvPc := .test
  got := []

/-- The flow as a transition system. -/
def FlowSetup.system (f : FlowSetup β) : System (Flow β) (FlowAct β) where
  init s := s = f.start
  step := Flow.step

end StellarBench
