import ImSingle.Uid.PaddingRun

/-! Processes of the fleet: each asks the database for a worker id when it starts and keeps it.
The UIDs of all of them together are different. -/
namespace ImSingle.Uid
open Library

/-- What `DockerUtils` finds in the environment. -/
structure DockerEnv where
  dockerHost : Option String
  dockerPort : Option String
  isDocker : Bool
  deriving DecidableEq, Repr

def retrieveFromEnv (getenv : String → Option String) : Except UidException DockerEnv :=
  let dockerHost := getenv "JPAAS_HOST"
  let dockerPort :=
    if isNotBlank (getenv "JPAAS_HTTP_PORT") then getenv "JPAAS_HTTP_PORT"
    else getenv "JPAAS_HOST_PORT_8080"
  match isNotBlank dockerHost, isNotBlank dockerPort with
  | true, true => .ok ⟨dockerHost,dockerPort,true⟩
  | false, false => .ok ⟨dockerHost,dockerPort,false⟩
  | _, _ => .error (.runtime ("Missing host or port from env for Docker. host:" ++
      textOf dockerHost ++ ", port:" ++ textOf dockerPort))

inductive WorkerNodeType
  | container
  | actual
  deriving DecidableEq, Repr

def WorkerNodeType.value : WorkerNodeType → ℤ
  | .container => 1
  | .actual => 2

/-- A row of `WORKER_NODE`, without its times. The entity has the id 0 until it is added. -/
structure WorkerNodeEntity where
  id : Long := 0
  hostName : Option String
  port : Option String
  type : ℤ
  deriving DecidableEq, Repr

/-- `DisposableWorkerIdAssigner.buildWorkerNode`: outside of Docker, the port is the time and a
random number below 100000. -/
def buildWorkerNode (docker : DockerEnv) (localAddress : String) (currentTimeMillis : Long)
    (random : Fin 100000) : WorkerNodeEntity :=
  if docker.isDocker then
    { hostName := docker.dockerHost
      port := docker.dockerPort
      type := WorkerNodeType.container.value }
  else
    { hostName := some localAddress
      port := some (toString currentTimeMillis.toInt ++ "-" ++ toString random.val)
      type := WorkerNodeType.actual.value }

/-- A started process. -/
structure Process where
  generator : CachedUidGenerator
  currentTimeMillis : Long
  state : Threads.State ℕ Padded Worker

/-- The UIDs its callers have got. -/
def Process.uids (process : Process) : List Long :=
  process.state.shared.ring.takes.map Prod.snd

structure Fleet where
  workerNodes : List WorkerNodeEntity
  processes : List Process

/-- A process starts in its environment, or a thread of a process takes an action. The
database generates `key` for the row that a start adds. -/
inductive FleetOp
  | boot (getenv : String → Option String) (localAddress : String) (currentTimeMillis : Long)
    (random : Fin 100000) (key : Long)
  | run (process : ℕ) (t : ℕ) (task : Task)

namespace Fleet

/-- `assignWorkerId`: the row is added, and its key is the worker id. -/
def assignWorkerId (s : Fleet) (workerNode : WorkerNodeEntity) (key : Long) : Fleet × Long :=
  ({ s with workerNodes := s.workerNodes ++ [{ workerNode with id := key }] }, key)

/-- A process whose worker id is too large does not start, and its row stays. -/
def start (p : CachedProperties) (s : Fleet) (workerNode : WorkerNodeEntity) (key : Long)
    (currentTimeMillis : Long) : Fleet :=
  let assigned := s.assignWorkerId workerNode key
  match CachedUidGenerator.afterPropertiesSet p (.ok assigned.2) with
  | .ok g =>
    { assigned.1 with
      processes := s.processes ++ [⟨g,currentTimeMillis,(g.machine currentTimeMillis).init⟩] }
  | .error _ => assigned.1

/-- All processes have the same properties. -/
def machine (p : CachedProperties) : Machine Fleet FleetOp where
  init := ⟨[],[]⟩
  step s
    | .boot getenv localAddress currentTimeMillis random key =>
      match retrieveFromEnv getenv with
      | .ok docker =>
        s.start p (buildWorkerNode docker localAddress currentTimeMillis random) key
          currentTimeMillis
      | .error _ => s
    | .run i t task =>
      { s with
        processes := s.processes.modify i fun process =>
          { process with
            state := (process.generator.machine process.currentTimeMillis).step process.state
              (t,task) } }

/-- The database generates keys that are new and not negative, and every process keeps to the
guard of its buffer. -/
def Guard (_ : List FleetOp) (s : Fleet) : FleetOp → Prop
  | .boot _ _ _ _ key => key ∉ s.workerNodes.map WorkerNodeEntity.id ∧ 0 ≤ key.toInt
  | .run i t task => ∀ process ∈ s.processes[i]?,
      CachedUidGenerator.Guard t process.state.shared (process.state.pc t) task

instance (past : List FleetOp) (s : Fleet) (op : FleetOp) : Decidable (Guard past s op) :=
  match op with
  | .boot _ _ _ _ _ => inferInstanceAs (Decidable (_ ∧ _))
  | .run _ _ _ => inferInstanceAs (Decidable (∀ process ∈ _, _))

theorem afterPropertiesSet_eq_ok {p : CachedProperties} {assigned : Except UidException Long}
    {g : CachedUidGenerator} (h : CachedUidGenerator.afterPropertiesSet p assigned = .ok g) :
    DefaultUidGenerator.afterPropertiesSet p.toProperties assigned =
      .ok g.toDefaultUidGenerator := by
  simp only [CachedUidGenerator.afterPropertiesSet] at h
  cases hdefault : DefaultUidGenerator.afterPropertiesSet p.toProperties assigned with
  | error e =>
    rw [hdefault] at h
    cases h
  | ok generator =>
    rw [hdefault] at h
    simp only [bind,Except.bind] at h
    split at h
    · cases h
    · obtain rfl := Except.ok.inj h
      rfl

/-- A process that has run by itself, with its allocator as the properties have it. -/
structure Sound (p : CachedProperties) (process : Process) : Prop where
  ready : process.generator.Ready
  allocator : BitsAllocator.new p.timeBits p.workerBits p.seqBits =
    .ok process.generator.bitsAllocator
  reached : ∃ ops, (process.generator.machine process.currentTimeMillis).Meets
      (process.generator.guard process.currentTimeMillis) ops ∧
    process.state = (process.generator.machine process.currentTimeMillis).after ops

/-- The worker ids are keys of different rows. -/
structure Inv (p : CachedProperties) (s : Fleet) : Prop where
  sound : ∀ process ∈ s.processes, Sound p process
  keys : (s.workerNodes.map WorkerNodeEntity.id).Nodup
  workerIds : (s.processes.map fun process => process.generator.workerId).Sublist
    (s.workerNodes.map WorkerNodeEntity.id)

theorem map_modify_of_eq {α β : Type*} (l : List α) (i : ℕ) {f : α → α} {h : α → β}
    (hf : ∀ a, h (f a) = h a) : (l.modify i f).map h = l.map h := by
  induction l generalizing i with
  | nil => simp
  | cons a l ih =>
    cases i with
    | zero => exact congrArg (· :: l.map h) (hf a)
    | succ i => exact congrArg (h a :: ·) (ih i)

theorem mem_modify {α : Type*} {l : List α} {i : ℕ} {f : α → α} {b : α} (h : b ∈ l.modify i f) :
    b ∈ l ∨ ∃ a, l[i]? = some a ∧ b = f a := by
  induction l generalizing i with
  | nil => simp at h
  | cons a l ih =>
    cases i with
    | zero =>
      obtain rfl | h := List.mem_cons.mp h
      · exact .inr ⟨a,rfl,rfl⟩
      · exact .inl (List.mem_cons_of_mem _ h)
    | succ i =>
      obtain rfl | h := List.mem_cons.mp h
      · exact .inl (List.mem_cons_self ..)
      · exact (ih h).imp_left (List.mem_cons_of_mem _)

section Inv
variable {p : CachedProperties} {s : Fleet} {ops : List FleetOp}

theorem Inv.start (h : s.Inv p) {key : Long}
    (hnew : key ∉ s.workerNodes.map WorkerNodeEntity.id) (hkey : 0 ≤ key.toInt)
    (hbits : p.timeBits + p.workerBits + p.seqBits < 2^31 - 1) (workerNode : WorkerNodeEntity)
    (currentTimeMillis : Long) : (s.start p workerNode key currentTimeMillis).Inv p := by
  have hrows : (s.workerNodes ++ [{ workerNode with id := key }]).map WorkerNodeEntity.id =
      s.workerNodes.map WorkerNodeEntity.id ++ [key] := List.map_append
  have hkeys := List.nodup_append.mpr ⟨h.keys,List.nodup_singleton key,fun id hid other hother =>
    List.mem_singleton.mp hother ▸ fun heq => hnew (heq ▸ hid)⟩
  simp only [Fleet.start,assignWorkerId]
  split
  · next g hg =>
    have hdefault := afterPropertiesSet_eq_ok hg
    obtain ⟨hallocator,-,hid,-⟩ := DefaultUidGenerator.afterPropertiesSet_eq_ok hdefault
    refine ⟨fun process hprocess => ?_,hrows ▸ hkeys,?_⟩
    · obtain hold | hstarted := List.mem_append.mp hprocess
      · exact h.sound process hold
      · rw [List.mem_singleton.mp hstarted]
        exact ⟨DefaultUidGenerator.ready_of_afterPropertiesSet hdefault hkey hbits,
          hallocator,[],Machine.meets_nil,rfl⟩
    · dsimp only
      rw [hrows,List.map_append,List.map_singleton,hid]
      exact h.workerIds.append_right _
  · refine ⟨h.sound,hrows ▸ hkeys,?_⟩
    dsimp only
    rw [hrows]
    exact h.workerIds.trans (List.sublist_append_left ..)

theorem Inv.step (h : s.Inv p) (hbits : p.timeBits + p.workerBits + p.seqBits < 2^31 - 1)
    {past : List FleetOp} {op : FleetOp} (hok : Guard past s op) :
    ((machine p).step s op).Inv p := by
  cases op with
  | boot getenv localAddress currentTimeMillis random key =>
    simp only [machine]
    split
    · exact h.start hok.1 hok.2 hbits _ _
    · exact h
  | run i t task =>
    refine ⟨fun process hprocess => ?_,h.keys,?_⟩
    · obtain hold | ⟨old,hold,rfl⟩ := mem_modify hprocess
      · exact h.sound process hold
      · have hsound := h.sound old (List.mem_of_getElem? hold)
        obtain ⟨ops,hmeets,hstate⟩ := hsound.reached
        have hact := hok old hold
        rw [hstate] at hact
        refine ⟨hsound.ready,hsound.allocator,ops ++ [(t,task)],
          Machine.meets_snoc.mpr ⟨hmeets,hact⟩,?_⟩
        rw [Machine.after_snoc,← hstate]
    · have hids := map_modify_of_eq s.processes i
        (f := fun process => { process with
          state := (process.generator.machine process.currentTimeMillis).step process.state
            (t,task) }) (h := fun process => process.generator.workerId) fun _ => rfl
      exact (congrArg (List.Sublist · _) hids).mpr h.workerIds

theorem inv_after (hbits : p.timeBits + p.workerBits + p.seqBits < 2^31 - 1)
    (h : (machine p).Meets Guard ops) : ((machine p).after ops).Inv p := by
  refine Machine.invariant (P := fun _ s => s.Inv p) ?_ ?_ h
  · exact ⟨fun _ hprocess => (List.not_mem_nil hprocess).elim,List.nodup_nil,
      List.Sublist.refl _⟩
  · intro past op _ hinv hok
    exact hinv.step hbits hok

theorem Sound.uids {process : Process} (h : Sound p process)
    (hcount : process.state.shared.provided ≤
      2^(process.generator.bitsAllocator.secondWidth + 1)) :
    process.uids.Nodup ∧ ∀ uid ∈ process.uids,
      (process.generator.bitsAllocator.parse uid).workerId = process.generator.workerId := by
  obtain ⟨ops,hmeets,hstate⟩ := h.reached
  rw [hstate] at hcount
  rw [Process.uids,hstate]
  refine ⟨CachedUidGenerator.nodup_uids h.ready hmeets hcount,fun uid huid => ?_⟩
  obtain ⟨second,-,hmem⟩ := CachedUidGenerator.second_of_uid hmeets huid
  exact (CachedUidGenerator.parse_nextIds h.ready hmem).1

end Inv

/-- All processes have the same properties `p`, with widths whose `int` sum does not wrap around.
However they and their threads interleave under the buffer's guard, and however many of them do
not come up, no UID is handed out twice in the whole fleet, as long as no process's buffer has been
offered more seconds than the bits of a second and the sign bit tell apart; with more, what it is
offered repeats. A UID names the process that made it by the key of its row. -/
theorem uids_distinct {p : CachedProperties}
    (hbits : p.timeBits + p.workerBits + p.seqBits < 2^31 - 1) {ops : List FleetOp}
    (h : (machine p).Meets Guard ops)
    (hcount : ∀ process ∈ ((machine p).after ops).processes, process.state.shared.provided ≤
      2^(process.generator.bitsAllocator.secondWidth + 1)) :
    (((machine p).after ops).processes.flatMap Process.uids).Nodup ∧
      (((machine p).after ops).processes.map fun process => process.generator.workerId).Nodup ∧
      ∀ process ∈ ((machine p).after ops).processes, ∀ uid ∈ process.uids,
        (process.generator.bitsAllocator.parse uid).workerId = process.generator.workerId := by
  have hinv := inv_after hbits h
  have hids := hinv.workerIds.nodup hinv.keys
  have huids := fun process hprocess =>
    (hinv.sound process hprocess).uids (hcount process hprocess)
  refine ⟨List.nodup_flatMap.mpr ⟨fun process hprocess => (huids process hprocess).1,?_⟩,hids,
    fun process hprocess => (huids process hprocess).2⟩
  refine (List.pairwise_map.mp hids).imp_of_mem fun {process other} hprocess hother hne => ?_
  intro uid huid huid'
  have hsame : process.generator.bitsAllocator = other.generator.bitsAllocator :=
    Except.ok.inj ((hinv.sound process hprocess).allocator.symm.trans
      (hinv.sound other hother).allocator)
  apply hne
  rw [← (huids process hprocess).2 uid huid,hsame,(huids other hother).2 uid huid']

/-- Two UIDs a second, and room for two seconds. -/
def smallProperties : CachedProperties where
  timeBits := 60
  workerBits := 2
  seqBits := 1
  boostPower := 1
  bits_pos := by decide

/-- A process in a container and one on a machine: their threads pad at the same second, and two
callers of each get a UID. The third process finds its port missing. -/
def twoProcesses : List FleetOp :=
  [.boot (fun _ => some "8080") "10.0.0.1" 1700000000000 7 1,
    .boot (fun _ => none) "10.0.0.2" 1700000000000 7 2,
    .boot (fun name => if name = "JPAAS_HOST" then some "node" else none) "10.0.0.3"
      1700000000000 7 3] ++
    (([0,1].product (CachedUidGenerator.firstPadding)).map fun (i,t,task) => .run i t task)

theorem uids_distinct_twoProcesses :
    (((machine smallProperties).after twoProcesses).processes.map fun process =>
        process.uids.length) = [2,2] ∧
      (((machine smallProperties).after twoProcesses).processes.flatMap
        Process.uids).Nodup :=
  ⟨by decide +kernel,(uids_distinct (p := smallProperties) (by decide) (by decide +kernel)
    (by decide +kernel)).1⟩

end Fleet
end ImSingle.Uid
