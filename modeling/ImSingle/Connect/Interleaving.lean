import ImSingle.Connect.ChannelsHub
import ImSingle.Library.Transition

/-! Sessions that open and close at the same time. Each operation of a concurrent map is one
atomic step, and every session runs `create`, `join`, `destroy` and `leave` in this order. Between
the size check of `destroy` and its removal of the channel, another session may join it. -/
namespace ImSingle.Connect.Interleaving
open Library ChannelsHub

/-- Where a session is, with what it has read so far. -/
inductive Pc
  | mapped (request : HandshakeData) (cid : String)
  | obtained (request : HandshakeData) (cid : String) (websocketChannel : ChannelRef)
  | joined (cid : String) (client : ChannelClient)
  | unmapped (client : ChannelClient) (channelId : Option String)
  | counted (client : ChannelClient) (channelId : Option String) (size : ℕ)
  | destroyed (client : ChannelClient)
  | gone

/-- The hub, the number of clients made so far, and where each session is that has begun. -/
structure Threads where
  hub : ChannelsHub
  created : ℕ
  pcs : JavaMap String Pc

/-- A session begins with its handshake, or takes its next step. -/
inductive Move
  | begin (request : HandshakeData) (cid session : String)
  | advance (session : String)

def Threads.goto (s : Threads) (session : String) (pc : Pc) (h : ChannelsHub) : Threads :=
  { s with hub := h, pcs := s.pcs.insert session pc }

/-- The last step of `destroy`. -/
def removeIfEmpty (channelId : Option String) (size : ℕ) (h : ChannelsHub) : ChannelsHub :=
  match channelId with
  | some channelId => if size = 0 then removeChannel channelId h else h
  | none => h

def Threads.advance (s : Threads) (session : String) : Pc → Threads
  | .mapped request cid =>
    s.goto session (.obtained request cid (computeIfAbsent cid s.hub).1)
      (computeIfAbsent cid s.hub).2
  | .obtained request cid websocketChannel =>
    let client : ChannelClient := ⟨s.created,request,session,websocketChannel⟩
    { s.goto session (.joined cid client) (client.join s.hub) with created := s.created + 1 }
  | .joined _ client =>
    s.goto session (.unmapped client (s.hub.channelMap.lookup session))
      (removeSession session s.hub)
  | .unmapped client channelId =>
    s.goto session (.counted client channelId (JavaMap.size s.hub.channelMap)) s.hub
  | .counted client channelId size =>
    s.goto session (.destroyed client) (removeIfEmpty channelId size s.hub)
  | .destroyed client => s.goto session .gone (client.leave s.hub)
  | .gone => s

def Threads.step (s : Threads) : Move → Threads
  | .begin request cid session =>
    match s.pcs.lookup session with
    | none => s.goto session (.mapped request cid) (putSession session cid s.hub)
    | some _ => s
  | .advance session =>
    match s.pcs.lookup session with
    | none => s
    | some pc => s.advance session pc

/-- Every interleaving of any number of sessions. -/
def threads : Machine Threads Move := ⟨⟨ChannelsHub.empty,0,∅⟩,Threads.step⟩

/-- A session that has joined and not begun to close is found by way of the hub. -/
def NoLostMember (s : Threads) : Prop := ∀ session cid client,
  s.pcs.lookup session = some (.joined cid client) → ∃ r,
    s.hub.channels.lookup cid = some r ∧ (s.hub.clients r).lookup session = some client

/-- The channel object a session counts on. -/
def Pc.uses : Pc → Option (String × ChannelRef)
  | .obtained _ cid websocketChannel => some (cid,websocketChannel)
  | .joined cid client => some (cid,client.websocketChannel)
  | _ => none

/-- The channel the next step of a session removes. -/
def Pc.removes : Pc → Option String
  | .counted _ channelId 0 => channelId
  | _ => none

/-- A channel is removed only when no session has obtained its object and not begun to close. -/
def RemovesUnused (s : Threads) : Move → Prop
  | .begin _ _ _ => True
  | .advance session => ∀ c ∈ (s.pcs.lookup session).bind Pc.removes,
      ∀ pc ∈ JavaMap.values s.pcs, pc.uses.map Prod.fst ≠ some c

instance (s : Threads) : DecidablePred (RemovesUnused s) := fun move => by
  cases move <;> unfold RemovesUnused <;> infer_instance

/-! ## The invariant -/

def Pc.client : Pc → Option ChannelClient
  | .joined _ client => some client
  | .unmapped client _ => some client
  | .counted client _ _ => some client
  | .destroyed client => some client
  | _ => none

structure Inv (s : Threads) : Prop where
  allocated : ∀ c r, s.hub.channels.lookup c = some r → r < s.hub.next
  own : ∀ session pc client, s.pcs.lookup session = some pc → pc.client = some client →
    client.session = session
  present : ∀ session pc c r, s.pcs.lookup session = some pc → pc.uses = some (c,r) →
    s.hub.channels.lookup c = some r
  member : ∀ session c client, s.pcs.lookup session = some (.joined c client) →
    (s.hub.clients client.websocketChannel).lookup session = some client

theorem Inv.noLostMember {s : Threads} (hinv : Inv s) : NoLostMember s :=
  fun session cid client h =>
    ⟨client.websocketChannel,hinv.present session _ cid _ h rfl,hinv.member session cid client h⟩

section step
variable {s : Threads} {session : String} {pc : Pc} {h : ChannelsHub}

/-- What a step of one session must keep for the others, and set up for itself. -/
theorem Inv.goto (hinv : Inv s) (hallocated : ∀ c r, h.channels.lookup c = some r → r < h.next)
    (hpresent : ∀ other pc' c r, other ≠ session → s.pcs.lookup other = some pc' →
      pc'.uses = some (c,r) → h.channels.lookup c = some r)
    (hmember : ∀ other c client, other ≠ session → s.pcs.lookup other = some (.joined c client) →
      (h.clients client.websocketChannel).lookup other = some client)
    (hown : ∀ client, pc.client = some client → client.session = session)
    (huses : ∀ c r, pc.uses = some (c,r) → h.channels.lookup c = some r)
    (hjoined : ∀ c client, pc = .joined c client →
      (h.clients client.websocketChannel).lookup session = some client) :
    Inv (s.goto session pc h) := by
  refine ⟨hallocated,?_,?_,?_⟩
  · intro other pc' client hpc hclient
    by_cases hother : other = session
    · subst hother
      obtain rfl : pc = pc' := by simpa [Threads.goto] using hpc
      exact hown client hclient
    · exact hinv.own other pc' client (by simpa [Threads.goto,hother] using hpc) hclient
  · intro other pc' c r hpc hc
    by_cases hother : other = session
    · subst hother
      obtain rfl : pc = pc' := by simpa [Threads.goto] using hpc
      exact huses c r hc
    · exact hpresent other pc' c r hother (by simpa [Threads.goto,hother] using hpc) hc
  · intro other c client hpc
    by_cases hother : other = session
    · subst hother
      exact hjoined c client (by simpa [Threads.goto] using hpc)
    · exact hmember other c client hother (by simpa [Threads.goto,hother] using hpc)

/-- A step that leaves the channels and their clients alone. -/
theorem Inv.goto_of_same (hinv : Inv s) (hnext : h.next = s.hub.next)
    (hchannels : h.channels = s.hub.channels) (hclients : h.clients = s.hub.clients)
    (hown : ∀ client, pc.client = some client → client.session = session)
    (huses : pc.uses = none) : Inv (s.goto session pc h) := by
  refine hinv.goto ?_ ?_ ?_ hown ?_ ?_
  · rw [hnext,hchannels]; exact hinv.allocated
  · rw [hchannels]; exact fun other pc' c r _ hpc => hinv.present other pc' c r hpc
  · rw [hclients]; exact fun other c client _ hpc => hinv.member other c client hpc
  · intro c r hc
    rw [huses] at hc
    cases hc
  · rintro c client rfl
    cases huses

/-! What each operation of the hub keeps, one lemma for each. -/

theorem Inv.computeIfAbsent (hinv : Inv s) (request : HandshakeData) (cid : String) :
    Inv (s.goto session (.obtained request cid (ChannelsHub.computeIfAbsent cid s.hub).1)
      (ChannelsHub.computeIfAbsent cid s.hub).2) := by
  refine hinv.goto ?_ ?_ ?_ ?_ ?_ ?_
  · intro c r hc
    rcases computeIfAbsent_old hc with hold | ⟨_,rfl,hnext,_⟩
    · exact Nat.lt_of_lt_of_le (hinv.allocated c r hold) computeIfAbsent_next
    · rw [hnext]; exact Nat.lt_succ_self _
  · intro other pc' c r _ hother hc
    exact computeIfAbsent_keeps (hinv.present other pc' c r hother hc)
  · intro other c client _ hother
    have hlt := hinv.allocated c _ (hinv.present other _ c _ hother rfl)
    rw [clients,computeIfAbsent_objects hlt]
    exact hinv.member other c client hother
  · intro client hclient
    cases hclient
  · intro c r hc
    obtain ⟨rfl,rfl⟩ := Prod.mk.inj (Option.some.inj hc)
    rw [computeIfAbsent_channels,if_pos rfl]
  · intro c client hc
    cases hc

/-- A client joins the object that its session has obtained. -/
theorem Inv.join (hinv : Inv s) {cid : String} {client : ChannelClient}
    (hsession : client.session = session)
    (hobtained : s.hub.channels.lookup cid = some client.websocketChannel) :
    Inv (s.goto session (.joined cid client) (client.join s.hub)) := by
  subst hsession
  refine hinv.goto hinv.allocated ?_ ?_ ?_ ?_ ?_
  · intro other pc' c r _ hother
    exact hinv.present other pc' c r hother
  · intro other c client' hne hother
    rw [client.join_lookup_session _ hne]
    exact hinv.member other c client' hother
  · intro client' hclient
    obtain rfl := Option.some.inj hclient
    rfl
  · intro c r hc
    obtain ⟨rfl,rfl⟩ := Prod.mk.inj (Option.some.inj hc)
    exact hobtained
  · intro c client' hc
    obtain ⟨rfl,rfl⟩ := Pc.joined.inj hc
    exact client.join_lookup_self s.hub

theorem Inv.leave (hinv : Inv s) {client : ChannelClient} (hsession : client.session = session) :
    Inv (s.goto session .gone (client.leave s.hub)) := by
  subst hsession
  refine hinv.goto hinv.allocated ?_ ?_ ?_ ?_ ?_
  · intro other pc' c r _ hother
    exact hinv.present other pc' c r hother
  · intro other c client' hne hother
    rw [client.leave_lookup_session _ hne]
    exact hinv.member other c client' hother
  · intro client' hclient
    cases hclient
  · intro c r hc
    cases hc
  · intro c client' hc
    cases hc

/-- A channel goes that no session uses. -/
theorem Inv.removeChannel (hinv : Inv s) {client : ChannelClient} {c : String}
    (hown : client.session = session)
    (hunused : ∀ pc' ∈ JavaMap.values s.pcs, pc'.uses.map Prod.fst ≠ some c) :
    Inv (s.goto session (.destroyed client) (ChannelsHub.removeChannel c s.hub)) := by
  refine hinv.goto ?_ ?_ ?_ ?_ ?_ ?_
  · intro d r hd
    have hne : d ≠ c := by
      rintro rfl
      simp at hd
    exact hinv.allocated d r (by simpa [hne] using hd)
  · intro other pc' d r _ hother hd
    have hne : d ≠ c := by
      rintro rfl
      have hvalue : pc' ∈ JavaMap.values s.pcs := JavaMap.mem_values.mpr ⟨other,hother⟩
      exact hunused pc' hvalue (by rw [hd]; rfl)
    simpa [hne] using hinv.present other pc' d r hother hd
  · intro other d client' _ hother
    exact hinv.member other d client' hother
  · intro client' hclient
    obtain rfl := Option.some.inj hclient
    exact hown
  · intro d r hd
    cases hd
  · intro d client' hd
    cases hd

theorem Inv.advance (hinv : Inv s) (hpc : s.pcs.lookup session = some pc)
    (hunused : ∀ c ∈ pc.removes, ∀ pc' ∈ JavaMap.values s.pcs, pc'.uses.map Prod.fst ≠ some c) :
    Inv (s.advance session pc) := by
  cases pc with
  | mapped request cid => exact hinv.computeIfAbsent request cid
  | obtained request cid r =>
    let client : ChannelClient := ⟨s.created,request,session,r⟩
    have hjoin : Inv (s.goto session (.joined cid client) (client.join s.hub)) :=
      hinv.join rfl (hinv.present session _ cid r hpc rfl)
    -- the number of clients made is no part of the invariant
    exact ⟨hjoin.allocated,hjoin.own,hjoin.present,hjoin.member⟩
  | joined cid client =>
    exact hinv.goto_of_same rfl rfl rfl (fun _ hc => hinv.own session _ _ hpc hc) rfl
  | unmapped client channelId =>
    exact hinv.goto_of_same rfl rfl rfl (fun _ hc => hinv.own session _ _ hpc hc) rfl
  | counted client channelId size =>
    have hown : ∀ client', (Pc.destroyed client).client = some client' →
        client'.session = session := fun _ hc => hinv.own session _ _ hpc hc
    cases channelId with
    | none => exact hinv.goto_of_same rfl rfl rfl hown rfl
    | some c =>
      cases size with
      | succ n => exact hinv.goto_of_same rfl rfl rfl hown rfl
      | zero => exact hinv.removeChannel (hown client rfl) (hunused c rfl)
  | destroyed client => exact hinv.leave (hinv.own session _ client hpc rfl)
  | gone => exact hinv

theorem Inv.step (hinv : Inv s) (move : Move) (hunused : RemovesUnused s move) :
    Inv (s.step move) := by
  cases move with
  | begin request cid session =>
    simp only [Threads.step]
    split
    · refine hinv.goto_of_same rfl rfl rfl (fun client hc => ?_) rfl
      cases hc
    · exact hinv
  | advance session =>
    simp only [Threads.step]
    split
    · exact hinv
    · next pc hpc => exact hinv.advance hpc fun c hc => hunused c (by simpa [hpc] using hc)

/-- The condition cannot be weakened: removing a channel that another session uses loses that
session, at once or when it joins. -/
theorem lost_of_removes_used {other c : String} {client : ChannelClient} {r : ChannelRef}
    (hpc : s.pcs.lookup session = some (.counted client (some c) 0))
    (hother : s.pcs.lookup other = some pc) (huses : pc.uses = some (c,r)) :
    ¬ NoLostMember (s.step (.advance session)) ∨
    ¬ NoLostMember ((s.step (.advance session)).step (.advance other)) := by
  have hne : other ≠ session := by
    rintro rfl
    obtain rfl := Option.some.inj (hpc.symm.trans hother)
    cases huses
  have hstep : s.step (.advance session) =
      s.goto session (.destroyed client) (removeChannel c s.hub) := by
    simp [Threads.step,hpc,Threads.advance,removeIfEmpty]
  have hkept : (s.step (.advance session)).pcs.lookup other = some pc := by
    simp [hstep,Threads.goto,hne,hother]
  have hgone : (s.step (.advance session)).hub.channels.lookup c = none := by
    simp [hstep,Threads.goto]
  cases pc with
  | joined cid client' =>
    obtain ⟨rfl,rfl⟩ := Prod.mk.inj (Option.some.inj huses)
    left
    intro hfound
    obtain ⟨r,hr,-⟩ := hfound other _ client' hkept
    rw [hgone] at hr
    cases hr
  | obtained request cid r' =>
    obtain ⟨rfl,rfl⟩ := Prod.mk.inj (Option.some.inj huses)
    right
    set t := s.step (.advance session)
    have hjoin : (t.step (.advance other)).pcs.lookup other =
        some (.joined cid ⟨t.created,request,other,r'⟩) := by
      simp [Threads.step,hkept,Threads.advance,Threads.goto]
    have hstill : (t.step (.advance other)).hub.channels.lookup cid = none := by
      simpa [Threads.step,hkept,Threads.advance,Threads.goto] using hgone
    intro hfound
    obtain ⟨r,hr,-⟩ := hfound other _ _ hjoin
    rw [hstill] at hr
    cases hr
  | mapped request cid => cases huses
  | unmapped client' channelId => cases huses
  | counted client' channelId size => cases huses
  | destroyed client' => cases huses
  | gone => cases huses

end step

/-- No interleaving loses a member as long as a channel is removed only when no session has
obtained its object and not begun to close. -/
theorem noLostMember_of_removesUnused (moves : List Move)
    (h : threads.Meets (fun _ => RemovesUnused) moves) :
    threads.Always (fun _ => NoLostMember) moves := by
  have hempty : Inv threads.init := by
    constructor <;> simp [threads,ChannelsHub.empty]
  refine Machine.always_of_forall h fun past hpast => Inv.noLostMember ?_
  exact Machine.invariant (P := fun _ s => Inv s) hempty
    (fun _ move _ hinv hunused => hinv.step move hunused) hpast

/-- A second session obtains and joins the channel between the size check and the removal. -/
def raceRun : List Move :=
  let request : HandshakeData := ⟨∅,"/"⟩
  [.begin request "c" "s",.advance "s",.advance "s",.advance "s",.advance "s",
    .begin request "c" "t",.advance "t",.advance "t",.advance "s"]

theorem raceRun_loses : ¬ threads.Always (fun _ => NoLostMember) raceRun := by
  intro h
  obtain ⟨r,hr,-⟩ := h.last "t" "c" ⟨1,⟨∅,"/"⟩,"t",0⟩ rfl
  cases hr

/-- Two sessions open and close side by side: both have joined the channel before either closes,
and the one that closes last removes it. -/
def twoSessions : List Move :=
  let request : HandshakeData := ⟨∅,"/"⟩
  [.begin request "c" "s",.begin request "c" "t",.advance "s",.advance "t",.advance "t",
    .advance "s",.advance "s",.advance "s",.advance "t",.advance "s",.advance "t",.advance "s",
    .advance "t",.advance "t"]

theorem noLostMember_twoSessions : threads.Always (fun _ => NoLostMember) twoSessions :=
  noLostMember_of_removesUnused _ (by decide)

end ImSingle.Connect.Interleaving
