import ImSingle.Message.MessageService
import ImSingle.Stat.Counters
import Mathlib.Data.List.Count

/-! The nodes a message is sent to. The list of a channel names every node with an unanswered
connect, also one that was stopped since: such a node is looked up as null, and the loop that
sends the message throws when it comes to it. -/
namespace ImSingle.Message
open Library Proto Stat Registry

/-- Started ids are non-null, and connects and disconnects are for available nodes, each
disconnect after a matching connect. Stops are free. -/
def FanOutGuard (past : List Op) (s : Registry) (op : Op) : Prop :=
  StartsNamed op ∧ OnAvailable s op ∧ Matched past op

instance (past : List Op) (s : Registry) : DecidablePred (FanOutGuard past s) := fun _ =>
  inferInstanceAs (Decidable (_ ∧ _ ∧ _))

/-- The connect calls minus the disconnect calls for a node and a channel since the node was
last started. -/
def connectsSinceStart (n c : String) (past : List Op) : ℤ :=
  past.foldl (fun k op =>
    match op with
    | .start node => if node.id = some n then 0 else k
    | .connect n' c' _ => if n' = n ∧ c' = c then k + 1 else k
    | .disconnect n' c' _ => if n' = n ∧ c' = c then k - 1 else k
    | .stop _ => k) 0

/-- What handling a message for a channel should do after the run `past`: one send for each
available node with more connects than disconnects since its start, no send to a node that is
not available, then one `save` and one `stat`, and no exception. -/
def FansOut (messageParser : MessageParser) (past : List Op) (from' c : String) (data : Bytes)
    (message : Proto.Message) : Prop :=
  let s := registry.after past
  ∃ sends, (handleMessage messageParser from' c data).run ⟨s,[]⟩ = .ok ()
      ⟨s,sends ++ [.save from' c message true,.stat from' c message true]⟩ ∧
    (∀ call ∈ sends, ∃ n ∈ s.availableNodes, call = .send (some n) from' c message) ∧
    ∀ n ∈ s.availableNodes, 0 < connectsSinceStart n c past →
      sends.count (.send (some n) from' c message) = 1

/-! ## One message -/

section message
variable {s : Registry} {from' c : String} {message : Proto.Message} {calls : List Call}

/-- With no null listed, each listed id is looked up once, in the order of the list. -/
theorem getConnectNodeByChannelId_run (h : none ∉ s.nodeIds c) :
    (getConnectNodeByChannelId c).run s = .ok ((s.nodeIds c).eraseDups.map s.available) s := by
  simp only [getConnectNodeByChannelId,EStateM.run_bind,EStateM.run_get]
  apply Java.run_mapM_of_reads
  intro id hid
  cases id with
  | none => exact absurd (List.mem_eraseDups.mp hid) h
  | some n => rfl

/-- The loop over the nodes of a channel. -/
def sendLoop (from' c : String) (message : Proto.Message) (nodes : List (Option Ref)) :
    Java World Unit :=
  nodes.forM fun connectNodeLoad => do
    let r ← Java.nonNull connectNodeLoad
    modify fun w => w.record (.send (w.registry.heap r).id from' c message)

theorem sendLoop_some (r : Ref) (nodes : List (Option Ref)) :
    (sendLoop from' c message (some r :: nodes)).run ⟨s,calls⟩ =
      (sendLoop from' c message nodes).run
        ⟨s,calls ++ [.send (s.heap r).id from' c message]⟩ := rfl

theorem sendLoop_run (hwf : s.WellFormed) {ids : List (Option String)}
    (h : ∀ id ∈ ids, s.available id ≠ none) :
    (sendLoop from' c message (ids.map s.available)).run ⟨s,calls⟩ =
      .ok () ⟨s,calls ++ ids.map fun id => .send id from' c message⟩ := by
  induction ids generalizing calls with
  | nil => simp [sendLoop]
  | cons id ids ih =>
    obtain ⟨r,hr⟩ := Option.ne_none_iff_exists'.mp (h id (by simp))
    have hid : (s.heap r).id = id := by
      obtain ⟨n,rfl,hn⟩ := Option.bind_eq_some_iff.mp hr
      exact (hwf.stored n r hn).1
    rw [List.map_cons,hr,sendLoop_some,ih fun id' hid' => h id' (by simp [hid']),hid]
    simp

theorem sendLoop_throws {nodes : List (Option Ref)} (h : none ∈ nodes) :
    ∃ w, (sendLoop from' c message nodes).run ⟨s,calls⟩ = .error .nullPointer w := by
  induction nodes generalizing calls with
  | nil => cases h
  | cons node nodes ih =>
    cases node with
    | none => exact ⟨⟨s,calls⟩,rfl⟩
    | some r =>
      rw [sendLoop_some]
      exact ih (by simpa using h)

variable {messageParser : MessageParser} {data : Bytes} {nodes : List (Option Ref)}

lemma sendToConnectNode_run (h : (getConnectNodeByChannelId c).run s = .ok nodes s) :
    (sendToConnectNode from' c message).run ⟨s,calls⟩ =
      (sendLoop from' c message nodes).run ⟨s,calls⟩ := by
  have h : getConnectNodeByChannelId c s = .ok nodes s := h
  simp [sendToConnectNode,sendLoop,EStateM.run,bind,EStateM.bind,onRegistry,h]

theorem handleMessage_run (hparse : messageParser.parseMessage data = some message)
    {sends : List Call} (h : (sendToConnectNode from' c message).run ⟨s,calls⟩ =
      .ok () ⟨s,sends⟩) :
    (handleMessage messageParser from' c data).run ⟨s,calls⟩ = .ok ()
      ⟨s,sends ++ [.save from' c message true,.stat from' c message true]⟩ := by
  simp [handleMessage,hparse,h,World.record]

theorem handleMessage_throws (hparse : messageParser.parseMessage data = some message)
    {e : Exn} {w : World} (h : (sendToConnectNode from' c message).run ⟨s,calls⟩ =
      .error e w) :
    (handleMessage messageParser from' c data).run ⟨s,calls⟩ = .error e w := by
  simp [handleMessage,hparse,h]

/-- One listed node that is not available makes the whole call throw. -/
theorem handleMessage_null (hparse : messageParser.parseMessage data = some message)
    (hnamed : none ∉ s.nodeIds c) {id : Option String} (hid : id ∈ s.nodeIds c)
    (hnull : s.available id = none) :
    ∃ w, (handleMessage messageParser from' c data).run ⟨s,calls⟩ = .error .nullPointer w := by
  have hmem : none ∈ (s.nodeIds c).eraseDups.map s.available :=
    List.mem_map.mpr ⟨id,List.mem_eraseDups.mpr hid,hnull⟩
  obtain ⟨w,hw⟩ : ∃ w, (sendLoop from' c message _).run ⟨s,calls⟩ = .error .nullPointer w :=
    sendLoop_throws hmem
  have hnodes := getConnectNodeByChannelId_run hnamed
  exact ⟨w,handleMessage_throws hparse ((sendToConnectNode_run hnodes).trans hw)⟩

/-- With every listed node available, each is sent the message once. -/
theorem handleMessage_available (hwf : s.WellFormed)
    (hparse : messageParser.parseMessage data = some message) (hnamed : none ∉ s.nodeIds c)
    (hall : ∀ id ∈ s.nodeIds c, s.available id ≠ none) :
    (handleMessage messageParser from' c data).run ⟨s,calls⟩ = .ok () ⟨s,
      calls ++ ((s.nodeIds c).eraseDups.map fun id => .send id from' c message) ++
        [.save from' c message true,.stat from' c message true]⟩ := by
  have hnodes := getConnectNodeByChannelId_run hnamed
  have hloop : (sendLoop from' c message _).run ⟨s,calls⟩ = .ok () ⟨s,_⟩ :=
    sendLoop_run hwf fun id hid => hall id (List.mem_eraseDups.mp hid)
  exact handleMessage_run hparse ((sendToConnectNode_run hnodes).trans hloop)

end message

/-! ## What the list of a channel holds -/

section lists
variable {s : Registry} {n c m d u : String} {past : List Op}

/-- No channel lists a null. -/
def ListsNamed (s : Registry) : Prop := ∀ c, none ∉ s.nodeIds c

theorem ListsNamed.step (h : ListsNamed s) (hwf : s.WellFormed) (op : Op) :
    ListsNamed (s.step op) := by
  intro d
  cases op with
  | start node => rw [nodeIds_congr d (channelNodeMap_start node)]; exact h d
  | stop r => rw [nodeIds_congr d (channelNodeMap_stop r)]; exact h d
  | connect n c u =>
    cases hr : s.availableNodes.lookup n with
    | none => rw [step_connect_unknown hr]; exact h d
    | some r =>
      rw [step_connect hr,(hwf.stored n r hr).1]
      change none ∉ (putChannel c (s.nodeIds c ++ [some n]) s).nodeIds d
      rw [nodeIds_putChannel]
      split
      · simpa using h c
      · exact h d
  | disconnect n c u =>
    cases hr : s.availableNodes.lookup n with
    | none => rw [step_disconnect_unknown hr]; exact h d
    | some r =>
      rw [step_disconnect hr]
      change none ∉ (dropFromChannel c (s.heap r).id s).nodeIds d
      rw [nodeIds_dropFromChannel]
      split
      · exact fun hmem => h c (List.mem_of_mem_erase hmem)
      · exact h d

theorem listsNamed_after (ops : List Op) : ListsNamed (registry.after ops) := by
  induction ops using List.reverseRecOn with
  | nil => intro c; simp [registry,Registry.empty,nodeIds]
  | append_singleton ops op ih =>
    rw [Machine.after_snoc]
    exact ih.step (wellFormed_after ops) op

theorem openConnects_connect : openConnects n c (past ++ [.connect m d u]) =
    if m = n ∧ d = c then u :: openConnects n c past else openConnects n c past := by
  simp [openConnects]

theorem openConnects_disconnect : openConnects n c (past ++ [.disconnect m d u]) =
    if m = n ∧ d = c then (openConnects n c past).erase u else openConnects n c past := by
  simp [openConnects]

/-- A node is listed for a channel once for each connect that has not been answered. -/
theorem multiplicity_after {ops : List Op} (h : registry.Meets FanOutGuard ops) (n c : String) :
    (registry.after ops).multiplicityIn n c = (openConnects n c ops).length := by
  induction ops using List.reverseRecOn with
  | nil => rfl
  | append_singleton past op ih =>
    obtain ⟨hpre,_,havail,hmatch⟩ := Machine.meets_snoc.mp h
    have hwf := wellFormed_after past
    replace ih := ih hpre
    rw [Machine.after_snoc]
    set s := registry.after past
    change (s.step op).multiplicityIn n c = _
    cases op with
    | start node =>
      simpa [multiplicityIn,nodeIds_congr c (channelNodeMap_start node),openConnects] using ih
    | stop r => simpa [multiplicityIn,nodeIds_congr c (channelNodeMap_stop r),openConnects] using ih
    | connect m d u =>
      obtain ⟨r,hr⟩ := exists_object havail
      rw [multiplicity_connect hwf (loadOf_eq_some.mpr ⟨r,hr,rfl⟩),openConnects_connect,ih]
      by_cases hnc : m = n ∧ d = c
      · simp [hnc]
      · rw [if_neg hnc,if_neg fun h => hnc ⟨h.1,h.2.symm⟩,Nat.add_zero]
    | disconnect m d u =>
      obtain ⟨r,hr⟩ := exists_object havail
      rw [multiplicity_disconnect hwf (loadOf_eq_some.mpr ⟨r,hr,rfl⟩),openConnects_disconnect,ih]
      by_cases hnc : m = n ∧ d = c
      · obtain ⟨rfl,rfl⟩ := hnc
        simp [List.length_erase_of_mem hmatch]
      · rw [if_neg hnc,if_neg fun h => hnc ⟨h.1,h.2.symm⟩,Nat.sub_zero]

/-- The nodes listed for a channel are those with an unanswered connect. -/
theorem mem_nodeIds_iff {ops : List Op} (h : registry.Meets FanOutGuard ops) (n : String) :
    some n ∈ (registry.after ops).nodeIds c ↔ openConnects n c ops ≠ [] := by
  rw [← List.count_pos_iff,← List.length_pos_iff,← multiplicity_after h n c,multiplicityIn]

/-- The connects since the last start are among the unanswered ones. -/
theorem connectsSinceStart_le {ops : List Op} (h : registry.Meets FanOutGuard ops)
    (n c : String) : connectsSinceStart n c ops ≤ (openConnects n c ops).length := by
  induction ops using List.reverseRecOn with
  | nil => simp [connectsSinceStart]
  | append_singleton past op ih =>
    obtain ⟨hpre,_,_,hmatch⟩ := Machine.meets_snoc.mp h
    replace ih := ih hpre
    unfold connectsSinceStart at ih ⊢
    rw [List.foldl_append,List.foldl_cons,List.foldl_nil]
    cases op with
    | start node =>
      simp only [openConnects,List.foldl_append,List.foldl_cons,List.foldl_nil] at ih ⊢
      split <;> omega
    | stop r => simpa [openConnects] using ih
    | connect m d u =>
      rw [openConnects_connect]
      by_cases hnc : m = n ∧ d = c
      · simpa [hnc] using ih
      · simpa [hnc] using ih
    | disconnect m d u =>
      rw [openConnects_disconnect]
      by_cases hnc : m = n ∧ d = c
      · obtain ⟨rfl,rfl⟩ := hnc
        have hpos := List.length_pos_of_mem hmatch
        simp [List.length_erase_of_mem hmatch]
        omega
      · simpa [hnc] using ih

end lists

/-! ## All sends, or none of the bookkeeping -/

lemma count_eraseDups {α : Type} [BEq α] [LawfulBEq α] {as : List α} {a : α} (h : a ∈ as) :
    as.eraseDups.count a = 1 := by
  induction as using List.reverseRecOn with
  | nil => cases h
  | append_singleton as b ih =>
    rw [List.eraseDups_append,List.count_append]
    by_cases ha : a ∈ as
    · have hnot : a ∉ ([b].removeAll as).eraseDups := by simp [List.removeAll,ha]
      rw [ih ha,List.count_eq_zero_of_not_mem hnot]
    · obtain rfl : a = b := by simpa [ha] using h
      have hself : [a].removeAll as = [a] := by simp [List.removeAll,ha]
      have hnot : a ∉ as.eraseDups := fun hmem => ha (List.mem_eraseDups.mp hmem)
      simp [hself,List.count_eq_zero_of_not_mem hnot,List.eraseDups_cons]

lemma send_injective (from' c : String) (message : Proto.Message) :
    Function.Injective fun id => Call.send id from' c message := by
  intro a b hab
  simpa using hab

/-- After any run, a message is fanned out as it should be exactly if every node with an
unanswered connect for the channel is available. -/
theorem fansOut_iff (messageParser : MessageParser) (ops : List Op)
    (h : registry.Meets FanOutGuard ops) (from' c : String) (data : Bytes)
    (message : Proto.Message) (hparse : messageParser.parseMessage data = some message) :
    FansOut messageParser ops from' c data message ↔
      ∀ n, openConnects n c ops ≠ [] → n ∈ (registry.after ops).availableNodes := by
  have hnamed := listsNamed_after ops c
  have hlisted := mem_nodeIds_iff h (c := c)
  have hsince := connectsSinceStart_le h
  have hwf := wellFormed_after ops
  unfold FansOut
  set s := registry.after ops
  constructor
  · rintro ⟨sends,hrun,-⟩ n hopen
    by_contra hn
    -- the lookup of `n` puts a null among the nodes, and the loop stops there
    obtain ⟨w,hw⟩ : ∃ w, (handleMessage messageParser from' c data).run ⟨s,[]⟩ =
        .error .nullPointer w :=
      handleMessage_null hparse hnamed ((hlisted n).mpr hopen) (AList.lookup_eq_none.mpr hn)
    rw [hw] at hrun
    cases hrun
  · intro havail
    have hknown : ∀ id ∈ s.nodeIds c, ∃ n ∈ s.availableNodes, id = some n := by
      intro id hid
      cases id with
      | none => exact absurd hid hnamed
      | some n => exact ⟨n,havail n ((hlisted n).mp hid),rfl⟩
    have hall : ∀ id ∈ s.nodeIds c, s.available id ≠ none := by
      intro id hid
      obtain ⟨n,hn,rfl⟩ := hknown id hid
      exact Option.isSome_iff_ne_none.mp (AList.lookup_isSome.mpr hn)
    refine ⟨_,handleMessage_available hwf hparse hnamed hall,?_,?_⟩
    · intro call hcall
      obtain ⟨id,hid,rfl⟩ := List.mem_map.mp hcall
      obtain ⟨n,hn,rfl⟩ := hknown id (List.mem_eraseDups.mp hid)
      exact ⟨n,hn,rfl⟩
    · intro n _ hpos
      have hopen : openConnects n c ops ≠ [] := by
        have := hsince n c
        exact List.length_pos_iff.mp (by omega)
      change ((s.nodeIds c).eraseDups.map _).count _ = 1
      rw [List.count_map_of_injective _ _ (send_injective from' c message)]
      exact count_eraseDups ((hlisted n).mpr hopen)

/-- A parser of no bytes: they are the empty message, or the empty event. -/
def emptyParser : MessageParser where
  parseMessage data := if data = [] then some ⟨.text,"",0⟩ else none
  parseEvent data := if data = [] then some ⟨"","",.online,0⟩ else none

/-- A node goes down while one of its clients is in the channel. -/
def downRun : List Op :=
  [.start ⟨some "1",some "127.0.0.1",8080,18080,0⟩,.connect "1" "c" "u",.stop 0]

/-- Handling a message for the channel throws before the message is stored or counted. -/
theorem downRun_not_fansOut : registry.Meets FanOutGuard downRun ∧
    (Java.finalState ((handleMessage emptyParser "v" "c" []).run
      ⟨registry.after downRun,[]⟩)).calls = [] ∧
    ¬ FansOut emptyParser downRun "v" "c" [] ⟨.text,"",0⟩ := by
  refine ⟨by decide,by decide,fun h => ?_⟩
  obtain ⟨sends,hrun,-⟩ := h
  have hthrown : Java.returned ((handleMessage emptyParser "v" "c" []).run
      ⟨registry.after downRun,[]⟩) = false := by decide
  rw [hrun] at hthrown
  cases hthrown

theorem fansOut_connected : FansOut emptyParser
    [.start ⟨some "1",some "127.0.0.1",8080,18080,0⟩,.connect "1" "c" "u"] "v" "c" []
    ⟨.text,"",0⟩ := by
  refine (fansOut_iff _ _ (by decide) _ _ _ _ (by decide)).mpr ?_
  intro n hn
  have h : n = "1" := by
    by_contra hne
    simp [openConnects,Ne.symm hne] at hn
  subst h
  decide

end ImSingle.Message
