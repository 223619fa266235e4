import ImSingle.Stat.RegistryRun
import Mathlib.Data.List.ReduceOption

/-! im-message's `NodeWatchService`: Consul sends the whole list of connect nodes, and the
registry is brought up to date with the difference to its own. -/
namespace ImSingle.Stat
open Library Registry

/-! ## The notification -/

structure Checks where
  status : Option String

/-- `meta'` holds, for each key, what the value's `toString` gives. -/
structure Service where
  id : Option String
  meta' : Option (JavaMap String (Option String))
  port : ℤ
  address : Option String

structure ConsulWatchServiceEntity where
  service : Option Service
  checks : Option (List (Option Checks))

/-- Any reference in the request body may be null. -/
abbrev ServiceNotify := Option (List (Option ConsulWatchServiceEntity))

/-! ## Its nodes -/

section resolve

def required {α : Type} : Option α → Except Exn α
  | some a => .ok a
  | none => .error .nullPointer

def anyPassing : List (Option Checks) → Except Exn Bool
  | [] => .ok false
  | check :: rest => do
    let check ← required check
    let status ← required check.status
    if status = "passing" then pure true else anyPassing rest

/-- The stream's filter. -/
def passing (entity : ConsulWatchServiceEntity) : Except Exn Bool :=
  match entity.checks with
  | none => .ok false
  | some checks => anyPassing checks

/-- The stream's mapping. -/
def toConnectNodeLoad (entity : ConsulWatchServiceEntity) : Except Exn ConnectNodeLoad := do
  let service ← required entity.service
  let meta' ← required service.meta'
  let wsPort ← required (meta'.lookup "wsPort").join
  let wsPort ← parseInt wsPort
  pure ⟨service.id,service.address,service.port,wsPort,0⟩

/-- The stream handles one entry after the other. -/
def resolveEntities : List (Option ConsulWatchServiceEntity) → Except Exn (List ConnectNodeLoad)
  | [] => .ok []
  | entity :: rest => do
    let entity ← required entity
    if ← passing entity then
      let node ← toConnectNodeLoad entity
      let nodes ← resolveEntities rest
      pure (node :: nodes)
    else resolveEntities rest

def resolveServiceNotify : ServiceNotify → Except Exn (List ConnectNodeLoad)
  | none => .ok []
  | some param => resolveEntities param

end resolve

/-! ## The difference to the registry -/

/-- `removeAll`: what no element of `other` is equal to. -/
def removeAll (s : Registry) (nodes other : List Ref) : List Ref :=
  nodes.filter fun e => !other.any (s.isEqual e)

def findOnline (s : Registry) (availableList connectNodes : List Ref) : List Ref :=
  removeAll s connectNodes availableList

def findOffline (s : Registry) (availableList connectNodes : List Ref) : List Ref :=
  removeAll s availableList connectNodes

/-- The objects the stream creates, one for each node. -/
def allocAll (nodes : List ConnectNodeLoad) (s : Registry) : Registry :=
  nodes.foldl (fun s node => alloc node s) s

/-- Their references. -/
def allocated (nodes : List ConnectNodeLoad) (s : Registry) : List Ref :=
  List.range' s.next nodes.length

def handlerServiceNotify (param : ServiceNotify) : Java Registry Unit := do
  let s ← get
  let availableList := getAvailableList s
  match resolveServiceNotify param with
  | .error e => throw e
  | .ok nodes =>
    let connectNodes := allocated nodes s
    modify (allocAll nodes)
    let s ← get
    let offlineList := findOffline s availableList connectNodes
    let onlineList := findOnline s availableList connectNodes
    offlineList.forM stop
    onlineList.forM start

/-! ## What the entries say -/

/-- Some check of the entry has the status `passing`. -/
def Passes (entity : ConsulWatchServiceEntity) : Bool :=
  (entity.checks.getD []).any fun check => check.bind Checks.status = some "passing"

/-- The entries with a passing check. -/
def passingEntries (param : ServiceNotify) : List ConsulWatchServiceEntity :=
  (param.getD []).reduceOption.filter Passes

def serviceId (entity : ConsulWatchServiceEntity) : Option String := entity.service.bind Service.id

def passingIds (param : ServiceNotify) : List (Option String) :=
  (passingEntries param).map serviceId

/-- The text under `wsPort`. -/
def Service.wsPort (service : Service) : Option String :=
  service.meta'.bind fun meta' => (meta'.lookup "wsPort").join

/-- The entry's service has an id and a number under `wsPort`. -/
def WellFormedEntry (entity : ConsulWatchServiceEntity) : Prop :=
  ∃ service ∈ entity.service, service.id ≠ none ∧
    ∃ text ∈ service.wsPort, ∃ wsPort, parseInt text = .ok wsPort

/-- No entry, check or status is null, and the entries with a passing check are well formed. -/
def Acceptable (param : ServiceNotify) : Prop :=
  ∀ entry ∈ param.getD [], ∃ entity ∈ entry,
    (∀ check ∈ entity.checks.getD [], check.bind Checks.status ≠ none) ∧
    (Passes entity = true → WellFormedEntry entity)

/-- The node has the id, the address and the ports of the entry's service. -/
def Describes (entity : ConsulWatchServiceEntity) (node : ConnectNodeLoad) : Prop :=
  ∃ service ∈ entity.service, node.id = service.id ∧ node.ip = service.address ∧
    node.port = service.port ∧ ∃ text ∈ service.wsPort, parseInt text = .ok node.wsPort

section resolved
variable {entity : ConsulWatchServiceEntity} {param : ServiceNotify} {nodes : List ConnectNodeLoad}

theorem required_eq_ok {α : Type} {reference : Option α} {a : α} :
    required reference = .ok a ↔ reference = some a := by
  cases reference <;> simp [required]

theorem anyPassing_cons (status : String) (rest : List (Option Checks)) :
    anyPassing (some ⟨some status⟩ :: rest) =
      if status = "passing" then .ok true else anyPassing rest := rfl

theorem anyPassing_ok {checks : List (Option Checks)} {b : Bool} (h : anyPassing checks = .ok b) :
    (checks.any fun check => check.bind Checks.status = some "passing") = b := by
  induction checks with
  | nil =>
    cases h
    rfl
  | cons check rest ih =>
    match check with
    | none => cases h
    | some ⟨none⟩ => cases h
    | some ⟨some status⟩ =>
      by_cases hs : status = "passing"
      · subst hs
        cases h
        rfl
      · rw [anyPassing_cons,if_neg hs] at h
        simpa [hs] using ih h

theorem passing_ok {b : Bool} (h : passing entity = .ok b) : Passes entity = b := by
  unfold passing at h
  unfold Passes
  cases hc : entity.checks with
  | none =>
    rw [hc] at h
    cases h
    rfl
  | some checks =>
    rw [hc] at h
    exact anyPassing_ok h

theorem anyPassing_returns {checks : List (Option Checks)}
    (h : ∀ check ∈ checks, check.bind Checks.status ≠ none) : ∃ b, anyPassing checks = .ok b := by
  induction checks with
  | nil => exact ⟨false,rfl⟩
  | cons check rest ih =>
    match check, h check (by simp) with
    | some ⟨some status⟩, _ =>
      rw [anyPassing_cons]
      split
      · exact ⟨true,rfl⟩
      · exact ih fun check hmem => h check (by simp [hmem])

theorem passing_returns (h : ∀ check ∈ entity.checks.getD [], check.bind Checks.status ≠ none) :
    ∃ b, passing entity = .ok b := by
  unfold passing
  cases hc : entity.checks with
  | none => exact ⟨false,rfl⟩
  | some checks => exact anyPassing_returns (by simpa [hc] using h)

/-- The mapping returns the node that the service's fields make up. -/
theorem toConnectNodeLoad_eq_ok {node : ConnectNodeLoad} : toConnectNodeLoad entity = .ok node ↔
    ∃ service, entity.service = some service ∧ ∃ text, service.wsPort = some text ∧
      ∃ wsPort, parseInt text = .ok wsPort ∧
        ⟨service.id,service.address,service.port,wsPort,0⟩ = node := by
  simp only [toConnectNodeLoad,bind_eq_ok,pure_eq_ok,required_eq_ok,Service.wsPort,
    Option.bind_eq_some_iff]
  refine exists_congr fun service => and_congr_right fun _ => ?_
  constructor
  · rintro ⟨meta',hmeta,text,htext,hport⟩
    exact ⟨text,⟨meta',hmeta,htext⟩,hport⟩
  · rintro ⟨text,⟨meta',hmeta,htext⟩,hport⟩
    exact ⟨meta',hmeta,text,htext,hport⟩

theorem toConnectNodeLoad_ok {node : ConnectNodeLoad} (h : toConnectNodeLoad entity = .ok node) :
    Describes entity node ∧ node.load = 0 := by
  obtain ⟨service,hservice,text,htext,wsPort,hparse,rfl⟩ := toConnectNodeLoad_eq_ok.mp h
  exact ⟨⟨service,hservice,rfl,rfl,rfl,text,htext,hparse⟩,rfl⟩

theorem toConnectNodeLoad_returns (h : WellFormedEntry entity) :
    ∃ node, toConnectNodeLoad entity = .ok node := by
  obtain ⟨service,hservice,_,text,htext,wsPort,hparse⟩ := h
  exact ⟨_,toConnectNodeLoad_eq_ok.mpr ⟨service,hservice,text,htext,wsPort,hparse,rfl⟩⟩

/-- The stream returns if it does for an entry that passes, or for the others. -/
theorem resolveEntities_cons {entry : Option ConsulWatchServiceEntity}
    {rest : List (Option ConsulWatchServiceEntity)} :
    resolveEntities (entry :: rest) = .ok nodes ↔ ∃ entity, entry = some entity ∧
      ∃ b, passing entity = .ok b ∧ if b then ∃ node, toConnectNodeLoad entity = .ok node ∧
        ∃ tail, resolveEntities rest = .ok tail ∧ node :: tail = nodes
      else resolveEntities rest = .ok nodes := by
  rw [resolveEntities,bind_eq_ok]
  refine exists_congr fun entity => and_congr required_eq_ok ?_
  rw [bind_eq_ok]
  refine exists_congr fun b => and_congr_right fun _ => ?_
  cases b with
  | false => exact Iff.rfl
  | true => simp only [if_true,bind_eq_ok,pure_eq_ok]

/-- The nodes are those of the passing entries, in their order. -/
theorem resolveEntities_ok {entries : List (Option ConsulWatchServiceEntity)}
    (h : resolveEntities entries = .ok nodes) :
    List.Forall₂ (fun entity node => Describes entity node ∧ node.load = 0)
      (entries.reduceOption.filter Passes) nodes := by
  induction entries generalizing nodes with
  | nil =>
    cases h
    exact .nil
  | cons entry rest ih =>
    obtain ⟨entity,rfl,b,hpass,h⟩ := resolveEntities_cons.mp h
    rw [List.reduceOption_cons_of_some]
    cases b with
    | false =>
      rw [List.filter_cons_of_neg (by simp [passing_ok hpass])]
      exact ih h
    | true =>
      obtain ⟨node,hnode,tail,hrest,rfl⟩ := h
      rw [List.filter_cons_of_pos (passing_ok hpass)]
      exact .cons (toConnectNodeLoad_ok hnode) (ih hrest)

theorem resolveServiceNotify_ok (h : resolveServiceNotify param = .ok nodes) :
    List.Forall₂ (fun entity node => Describes entity node ∧ node.load = 0)
      (passingEntries param) nodes := by
  cases param with
  | none =>
    cases h
    exact .nil
  | some entries => exact resolveEntities_ok h

theorem Describes.serviceId {node : ConnectNodeLoad} (h : Describes entity node) :
    node.id = serviceId entity := by
  obtain ⟨service,hservice,hid,_⟩ := h
  have hservice : entity.service = some service := hservice
  rw [hid,Stat.serviceId,hservice,Option.bind_some]

theorem map_id_of_resolve (h : resolveServiceNotify param = .ok nodes) :
    nodes.map ConnectNodeLoad.id = passingIds param := by
  have hall := resolveServiceNotify_ok h
  rw [passingIds]
  generalize passingEntries param = entries at hall ⊢
  clear h
  induction hall with
  | nil => rfl
  | cons hnode _ ih => rw [List.map_cons,List.map_cons,ih,hnode.1.serviceId]

theorem load_of_resolve (h : resolveServiceNotify param = .ok nodes) :
    ∀ node ∈ nodes, node.load = 0 := by
  have hall := resolveServiceNotify_ok h
  generalize passingEntries param = entries at hall
  clear h
  induction hall with
  | nil => simp
  | cons hnode _ ih => simpa using ⟨hnode.2,ih⟩

theorem resolveEntities_returns {entries : List (Option ConsulWatchServiceEntity)}
    (h : Acceptable (some entries)) : ∃ nodes, resolveEntities entries = .ok nodes := by
  induction entries with
  | nil => exact ⟨[],rfl⟩
  | cons entry rest ih =>
    obtain ⟨entity,rfl,hstatus,hentry⟩ := h entry (by simp)
    obtain ⟨b,hpass⟩ := passing_returns hstatus
    obtain ⟨tail,hrest⟩ := ih fun entry hmem => h entry (List.mem_cons_of_mem _ hmem)
    cases b with
    | false => exact ⟨tail,resolveEntities_cons.mpr ⟨entity,rfl,false,hpass,hrest⟩⟩
    | true =>
      obtain ⟨node,hnode⟩ := toConnectNodeLoad_returns (hentry (passing_ok hpass))
      exact ⟨node :: tail,resolveEntities_cons.mpr
        ⟨entity,rfl,true,hpass,node,hnode,tail,hrest,rfl⟩⟩

theorem Acceptable.resolve (h : Acceptable param) :
    ∃ nodes, resolveServiceNotify param = .ok nodes := by
  cases param with
  | none => exact ⟨[],rfl⟩
  | some entries => exact resolveEntities_returns h

theorem Acceptable.passingIds (h : Acceptable param) : none ∉ passingIds param := by
  simp only [Stat.passingIds,List.mem_map,passingEntries,List.mem_filter,List.reduceOption_mem_iff]
  rintro ⟨entity,⟨hmem,hpass⟩,hid⟩
  obtain ⟨entity',hentity,_,hentry⟩ := h _ hmem
  cases hentity
  obtain ⟨service,hservice,hne,_⟩ := hentry hpass
  have hservice : entity.service = some service := hservice
  rw [serviceId,hservice,Option.bind_some] at hid
  exact hne hid

end resolved

/-- A passing instance on the usual ports, by id and address. -/
def passingInstance (service : String × String) : ConsulWatchServiceEntity where
  service := some ⟨some service.1,some ((∅ : JavaMap _ _).insert "wsPort" (some "18080")),8080,
    some service.2⟩
  checks := some [some ⟨some "passing"⟩]

def instances (services : List (String × String)) : ServiceNotify :=
  some (services.map fun service => some (passingInstance service))

theorem acceptable_instances (services : List (String × String)) :
    Acceptable (instances services) := by
  intro entry hentry
  obtain ⟨service,_,rfl⟩ := List.mem_map.mp hentry
  have hparse : parseInt "18080" = .ok 18080 := by decide
  refine ⟨_,rfl,by simp [passingInstance],
    fun _ => ⟨_,rfl,Option.some_ne_none _,"18080",?_,_,hparse⟩⟩
  rw [Option.mem_def,Service.wsPort,Option.bind_some,AList.lookup_insert,Option.join_some]

theorem passingIds_instances (services : List (String × String)) :
    passingIds (instances services) = services.map fun service => some service.1 := by
  induction services with
  | nil => rfl
  | cons service services ih =>
    rw [List.map_cons,← ih]
    rfl

end ImSingle.Stat
