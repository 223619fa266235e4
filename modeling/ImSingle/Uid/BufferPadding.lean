import ImSingle.Uid.RingRun
import ImSingle.Uid.CachedUidGenerator

/-! `BufferPaddingExecutor` at work: callers take UIDs from the ring buffer while padding tasks
fill it up with the UIDs of one second after another. -/
namespace ImSingle.Uid
open Library

/-- The buffer, the executor's `running` flag and `lastSecond`, and how many seconds it has
asked the provider for. -/
structure Padded where
  ring : Ring
  running : Bool
  lastSecond : Long
  provided : ℕ

/-- Where a thread stands in `paddingBuffer`. `fill` is the loop over the UIDs of a second with
those that are left; within it the thread may be in a call of `put`. -/
inductive Padding
  | none
  | provide
  | fill (rest : List Long)
  | finish
  deriving DecidableEq, Repr

structure Worker where
  ring : Pc
  padding : Padding
  deriving DecidableEq, Repr

/-- What a thread at rest begins. Who calls `paddingBuffer` and when is left open:
`initRingBuffer` does once, the schedule again and again, and the pool for every call of
`asyncPadding`. -/
inductive Task
  | getUID
  | paddingBuffer
  | go
  deriving DecidableEq, Repr

namespace CachedUidGenerator
variable (g : CachedUidGenerator)

/-- An action on the ring buffer. -/
def onRing (t : ℕ) (s : Padded) (pc : Pc) (call : Call) : Padded × Pc :=
  let next := g.ringBuffer.act t s.ring pc call
  ({ s with ring := next.1 }, next.2)

/-- The action after a `put` of the loop has gone on: a rejected one ends both loops. -/
def afterPut (rest : List Long) (next : Padded × Pc) : Padded × Worker :=
  match next.2 with
  | .idle (some (.put false)) => (next.1, ⟨next.2,.finish⟩)
  | _ => (next.1, ⟨next.2,.fill rest⟩)

def act (t : ℕ) (s : Padded) (w : Worker) (task : Task) : Padded × Worker :=
  match w.padding, w.ring with
  | .none, .idle last =>
    match task with
    | .getUID =>
      let next := g.onRing t s (.idle last) .take
      (next.1, ⟨next.2,.none⟩)
    | .paddingBuffer =>
      -- running.compareAndSet(false, true)
      if s.running then (s, w) else ({ s with running := true }, ⟨.idle last,.provide⟩)
    | .go => (s, w)
  | .none, pc =>
    let next := g.onRing t s pc .go
    (next.1, ⟨next.2,.none⟩)
  | .provide, pc =>
    let second := s.lastSecond + 1
    ({ s with lastSecond := second, provided := s.provided + 1 },
      ⟨pc,.fill (g.nextIdsForOneSecond second)⟩)
  | .fill [], .idle last => (s, ⟨.idle last,.provide⟩)
  | .fill (uid :: rest), .idle last =>
    let next := g.onRing t s (.idle last) (.put uid)
    match next.2 with
    | .idle last => (next.1, ⟨.idle last,.fill (uid :: rest)⟩)
    | pc => (next.1, ⟨pc,.fill rest⟩)
  | .fill rest, pc => afterPut rest (g.onRing t s pc .go)
  | .finish, pc => ({ s with running := false }, ⟨pc,.none⟩)

/-- The executor starts from the second in which it is created. -/
def threads (currentTimeMillis : Long) : Threads ℕ Padded Worker Task where
  init := ⟨RingBuffer.init,false,toSeconds currentTimeMillis,0⟩
  start := ⟨.idle none,.none⟩
  act := g.act

abbrev machine (currentTimeMillis : Long) :
    Machine (Threads.State ℕ Padded Worker) (ℕ × Task) := (g.threads currentTimeMillis).machine

/-- The ring buffer's guard, for the threads' actions on it. -/
def Guard (t : ℕ) (s : Padded) (w : Worker) (_ : Task) : Prop :=
  RingBuffer.Guard t s.ring w.ring .go

instance (t : ℕ) (s : Padded) (w : Worker) (task : Task) : Decidable (Guard t s w task) :=
  inferInstanceAs (Decidable (RingBuffer.Guard t s.ring w.ring .go))

abbrev guard (currentTimeMillis : Long) :
    List (ℕ × Task) → Threads.State ℕ Padded Worker → ℕ × Task → Prop :=
  (g.threads currentTimeMillis).guard Guard

/-- The part of the state that the buffer's own machine has. -/
def ringPart (s : Threads.State ℕ Padded Worker) : Threads.State ℕ Ring Pc :=
  ⟨s.shared.ring,fun t => (s.pc t).ring⟩

end CachedUidGenerator
end ImSingle.Uid
