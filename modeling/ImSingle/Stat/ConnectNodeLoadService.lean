import ImSingle.Library.HeapOrder
import ImSingle.Library.Java
import ImSingle.Library.Transition
import Mathlib.Logic.Function.Basic
import Mathlib.Tactic.Simps.Basic

/-! The registry of connect nodes in im-message (`ConnectNodeLoadServiceImpl`): which nodes are
available, which nodes each channel is spread over, and a priority queue of nodes by load.
The map and the queue share mutable `ConnectNodeLoad` objects, so both hold references. -/
namespace ImSingle.Stat
open Library

/-- One connect node. A Java reference field may be null. -/
structure ConnectNodeLoad where
  id : Option String
  ip : Option String
  port : ℤ
  wsPort : ℤ
  load : ℤ := 0
  deriving DecidableEq, Repr, Inhabited

namespace ConnectNodeLoad

/-- Two nodes are equal when their ids are. -/
def equals (a b : ConnectNodeLoad) : Bool := a.id = b.id

/-- `this.load - o.load` in 32-bit arithmetic. -/
def compareTo (a b : ConnectNodeLoad) : ℤ := toInt32 (a.load - b.load)

end ConnectNodeLoad

/-- The identity of a `ConnectNodeLoad` object. -/
abbrev Ref := ℕ

/-- The three fields of the service, with the objects they refer to: `heap r` is the object
`r`, and the references from `next` on are not allocated yet. -/
structure Registry where
  heap : Ref → ConnectNodeLoad
  next : Ref
  availableNodes : JavaMap String Ref
  channelNodeMap : JavaMap String (List (Option String))
  connectNodeLoads : List Ref

namespace Registry

def empty : Registry := ⟨fun _ => default,0,∅,∅,[]⟩

/-- The queue's comparator, with the loads the objects have now. -/
def compare (s : Registry) (a b : Ref) : ℤ := (s.heap a).compareTo (s.heap b)

/-- `o.equals(e)` for the queue's `remove(o)`. -/
def isEqual (s : Registry) (o e : Ref) : Bool := (s.heap o).equals (s.heap e)

/-- The node ids listed for a channel. -/
def nodeIds (s : Registry) (channelId : String) : List (Option String) :=
  (s.channelNodeMap.lookup channelId).getD []

/-- `new ConnectNodeLoad(..)`. -/
@[simps] def alloc (node : ConnectNodeLoad) (s : Registry) : Registry :=
  { s with heap := Function.update s.heap s.next node, next := s.next + 1 }

@[simps next availableNodes channelNodeMap connectNodeLoads]
def setLoad (r : Ref) (load : ℤ) (s : Registry) : Registry :=
  { s with heap := Function.update s.heap r { s.heap r with load := toInt32 load } }

/-- `availableNodes.put(..)`. -/
@[simps] def putNode (id : String) (r : Ref) (s : Registry) : Registry :=
  { s with availableNodes := s.availableNodes.insert id r }

/-- `availableNodes.remove(..)`. -/
@[simps] def removeNode (id : String) (s : Registry) : Registry :=
  { s with availableNodes := s.availableNodes.erase id }

/-- `channelNodeMap.put(..)`. -/
@[simps] def putChannel (channelId : String) (ids : List (Option String)) (s : Registry) :
    Registry :=
  { s with channelNodeMap := s.channelNodeMap.insert channelId ids }

/-- `connectNodeLoads.add(..)`. -/
@[simps] def queueAdd (r : Ref) (s : Registry) : Registry :=
  { s with connectNodeLoads := PriorityQueue.add s.compare r s.connectNodeLoads }

/-- `connectNodeLoads.remove(..)`. -/
@[simps] def queueRemove (r : Ref) (s : Registry) : Registry :=
  { s with connectNodeLoads :=
      PriorityQueue.remove s.compare (s.isEqual r) s.connectNodeLoads }

end Registry
open Registry

/-- A connect node comes up. `ConcurrentHashMap.put` refuses a null id. -/
def start (connectNodeLoad : Ref) : Java Registry Unit := do
  let id ← Java.nonNull ((← get).heap connectNodeLoad).id
  modify (putNode id connectNodeLoad)
  modify (queueAdd connectNodeLoad)

/-- A client of node `nodeId` entered the channel. -/
def connect (nodeId channelId _userId : String) : Java Registry Unit := do
  let s ← get
  let connectNodeLoad := s.availableNodes.lookup nodeId
  let connectNodeIds := s.nodeIds channelId
  let r ← Java.nonNull connectNodeLoad
  modify (putChannel channelId (connectNodeIds ++ [(s.heap r).id]))
  modify fun s => setLoad r ((s.heap r).load + 1) s
  modify (queueRemove r)
  modify (queueAdd r)

/-- A client of node `nodeId` left the channel. A list that is not in the map is a fresh one,
which is dropped at the end. -/
def disconnect (nodeId channelId _userId : String) : Java Registry Unit := do
  let s ← get
  let connectNodeLoad := s.availableNodes.lookup nodeId
  let connectNodeIds := s.channelNodeMap.lookup channelId
  let r ← Java.nonNull connectNodeLoad
  match connectNodeIds with
  | some ids => modify (putChannel channelId (ids.erase (s.heap r).id))
  | none => pure ()
  modify fun s => setLoad r ((s.heap r).load - 1) s
  modify (queueAdd r)

/-- A connect node goes down. `ConcurrentHashMap.remove` refuses a null id. -/
def stop (connectNodeLoad : Ref) : Java Registry Unit := do
  let id ← Java.nonNull ((← get).heap connectNodeLoad).id
  modify (removeNode id)
  modify (queueRemove connectNodeLoad)

/-- The nodes a channel is spread over: a null stands for a listed node that is not available.
`ConcurrentHashMap.get` refuses a null id. -/
def getConnectNodeByChannelId (channelId : String) : Java Registry (List (Option Ref)) := do
  let s ← get
  (s.nodeIds channelId).eraseDups.mapM fun id => do
    let id ← Java.nonNull id
    pure (s.availableNodes.lookup id)

/-- The first two cells of the queue's array. -/
def getBestNode (s : Registry) (_channelId : String) : List Ref := s.connectNodeLoads.take 2

def getAvailableList (s : Registry) : List Ref := JavaMap.values s.availableNodes

/-! ## What each operation does -/

section effect
variable {s : Registry} {r : Ref} {n channelId : String} (userId : String)

theorem start_run (h : (s.heap r).id = some n) : (start r).run s = .ok ()
    (queueAdd r (putNode n r s)) := by
  simp [start,h]

theorem stop_run (h : (s.heap r).id = some n) : (stop r).run s = .ok ()
    (queueRemove r (removeNode n s)) := by
  simp [stop,h]

theorem connect_run (h : s.availableNodes.lookup n = some r) :
    (connect n channelId userId).run s = .ok () (queueAdd r (queueRemove r
      (setLoad r ((s.heap r).load + 1)
        (putChannel channelId (s.nodeIds channelId ++ [(s.heap r).id]) s)))) := by
  simp [connect,h,putChannel]

theorem connect_run_unknown (h : s.availableNodes.lookup n = none) :
    (connect n channelId userId).run s = .error .nullPointer s := by simp [connect,h]

/-- What `disconnect` leaves of the channel's list. -/
def dropFromChannel (channelId : String) (id : Option String) (s : Registry) : Registry :=
  match s.channelNodeMap.lookup channelId with
  | some ids => putChannel channelId (ids.erase id) s
  | none => s

theorem disconnect_run (h : s.availableNodes.lookup n = some r) :
    (disconnect n channelId userId).run s = .ok () (queueAdd r
      (setLoad r ((s.heap r).load - 1) (dropFromChannel channelId (s.heap r).id s))) := by
  cases hc : s.channelNodeMap.lookup channelId <;>
    simp [disconnect,h,hc,dropFromChannel,putChannel]

theorem disconnect_run_unknown (h : s.availableNodes.lookup n = none) :
    (disconnect n channelId userId).run s = .error .nullPointer s := by simp [disconnect,h]

end effect

/-! ## Frame lemmas -/

namespace Registry
variable (s : Registry) (r : Ref) (channelId c : String) (id : Option String)

@[simp] theorem setLoad_id (load : ℤ) (r' : Ref) :
    ((setLoad r load s).heap r').id = (s.heap r').id := by
  by_cases h : r' = r
  · subst h; simp [setLoad]
  · simp [setLoad,h]

@[simp] theorem setLoad_load_self (load : ℤ) :
    ((setLoad r load s).heap r).load = toInt32 load := by simp [setLoad]

theorem setLoad_heap_ne {r' : Ref} (load : ℤ) (h : r' ≠ r) :
    (setLoad r load s).heap r' = s.heap r' := by simp [setLoad,h]

@[simp] theorem dropFromChannel_heap : (dropFromChannel c id s).heap = s.heap := by
  unfold dropFromChannel; split <;> rfl
@[simp] theorem dropFromChannel_next : (dropFromChannel c id s).next = s.next := by
  unfold dropFromChannel; split <;> rfl
@[simp] theorem dropFromChannel_availableNodes :
    (dropFromChannel c id s).availableNodes = s.availableNodes := by
  unfold dropFromChannel; split <;> rfl
@[simp] theorem dropFromChannel_connectNodeLoads :
    (dropFromChannel c id s).connectNodeLoads = s.connectNodeLoads := by
  unfold dropFromChannel; split <;> rfl

theorem nodeIds_congr {s t : Registry} (h : s.channelNodeMap = t.channelNodeMap) :
    s.nodeIds c = t.nodeIds c := by rw [nodeIds,h,nodeIds]

theorem nodeIds_putChannel (ids : List (Option String)) :
    (putChannel channelId ids s).nodeIds c = if c = channelId then ids else s.nodeIds c := by
  by_cases h : c = channelId
  · subst h; simp [nodeIds]
  · simp [nodeIds,h]

theorem nodeIds_dropFromChannel : (dropFromChannel channelId id s).nodeIds c =
    if c = channelId then (s.nodeIds channelId).erase id else s.nodeIds c := by
  unfold dropFromChannel
  split
  · next ids h => rw [nodeIds_putChannel]; simp [nodeIds,h]
  · next h =>
    by_cases hc : c = channelId
    · subst hc; simp [nodeIds,h]
    · simp [hc]

end Registry
end ImSingle.Stat
