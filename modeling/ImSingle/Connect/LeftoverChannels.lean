import ImSingle.Connect.Membership

/-! The channels the hub keeps. `destroy` removes the channel of a closing session only when
the whole session map is empty, so a channel whose last member leaves stays as long as any
other channel has members. -/
namespace ImSingle.Connect
open Library Proto ChannelsHub

/-- The hub has a channel exactly if the channel has a live session. -/
def NoLeftovers (past : List Op) (w : World) : Prop :=
  ∀ c, c ∈ w.hub.channels ↔ ∃ s, (liveSessions past).lookup s = some c

/-- A closing session leaves another member of its channel behind, or no session at all. -/
def LastOrAccompanied (past : List Op) (_w : World) : Op → Prop
  | .channelInactive _ session =>
    ∀ c ∈ (liveSessions past).lookup session,
      c ∈ JavaMap.values ((liveSessions past).erase session) ∨
      JavaMap.size ((liveSessions past).erase session) = 0
  | .connectClient _ _ _ => True

instance (past : List Op) (w : World) : DecidablePred (LastOrAccompanied past w) := fun op =>
  match op with
  | .channelInactive _ _ => by unfold LastOrAccompanied; infer_instance
  | .connectClient _ _ _ => .isTrue trivial

section step
variable {past : List Op} {w : World} {outside : Outside} {request : HandshakeData}
  {session c cid uid : String}

theorem mem_channels_destroyed {h : ChannelsHub} {d : String} :
    d ∈ (destroyed c session h).channels ↔
      d ∈ h.channels ∧ (d = c → JavaMap.size (h.channelMap.erase session) ≠ 0) := by
  unfold destroyed
  split
  · next hsize => simp [hsize,and_comm]
  · next hsize => simp [hsize]

theorem noLeftovers_connectClient (h : NoLeftovers past w) (hinv : HubInvariant past w)
    (hfresh : session ∉ openedSessions past) (hsent : outside.sent = true)
    (hcid : request.first "cid" = some cid) (huid : request.first "uid" = some uid) :
    NoLeftovers (past ++ [.connectClient outside request session])
      (w.step (.connectClient outside request session)) := by
  have hlive : liveSessions (past ++ [.connectClient outside request session]) =
      (liveSessions past).insert session cid := by simp [liveSessions,hcid]
  have hnot : ∀ c, (liveSessions past).lookup session ≠ some c := by
    intro c hc
    rw [← hinv.mapped,hinv.not_live hfresh] at hc
    cases hc
  intro c
  rw [hlive,step_connectClient hsent hcid huid]
  change c ∈ (opened cid session w.hub).2.channels ↔ _
  rw [← AList.lookup_isSome,opened,computeIfAbsent_channels]
  split
  · next hc =>
    subst hc
    exact iff_of_true rfl ⟨session,AList.lookup_insert _⟩
  · next hc =>
    rw [AList.lookup_isSome,putSession_channels,h c]
    constructor
    · rintro ⟨s,hs⟩
      have hne : s ≠ session := by
        rintro rfl
        exact hnot c hs
      exact ⟨s,by rwa [AList.lookup_insert_ne hne]⟩
    · rintro ⟨s,hs⟩
      have hne : s ≠ session := by
        rintro rfl
        rw [AList.lookup_insert] at hs
        exact hc (Option.some.inj hs).symm
      exact ⟨s,by rwa [AList.lookup_insert_ne hne] at hs⟩

/-- For a live session of channel `c`. -/
theorem noLeftovers_destroyed (h : NoLeftovers past w) (hinv : HubInvariant past w)
    (hmap : (liveSessions past).lookup session = some c) :
    (∀ d, d ∈ (destroyed c session w.hub).channels ↔
      ∃ s, ((liveSessions past).erase session).lookup s = some d) ↔
    c ∈ JavaMap.values ((liveSessions past).erase session) ∨
      JavaMap.size ((liveSessions past).erase session) = 0 := by
  have hc : c ∈ w.hub.channels := (h c).mpr ⟨session,hmap⟩
  have hother : ∀ d, d ≠ c → (d ∈ w.hub.channels ↔
      ∃ s, ((liveSessions past).erase session).lookup s = some d) := by
    intro d hd
    rw [h d]
    refine exists_congr fun s => ?_
    by_cases hs : s = session
    · subst hs
      simp [hmap,Ne.symm hd]
    · rw [AList.lookup_erase_ne hs]
  have hpos : c ∈ JavaMap.values ((liveSessions past).erase session) →
      JavaMap.size ((liveSessions past).erase session) ≠ 0 := by
    intro hmem
    rw [← JavaMap.length_values]
    exact Nat.pos_iff_ne_zero.mp (List.length_pos_of_mem hmem)
  simp only [mem_channels_destroyed,hinv.mapped,← JavaMap.mem_values]
  constructor
  · intro hall
    by_contra hnone
    rw [not_or] at hnone
    exact hnone.1 ((hall c).mp ⟨hc,fun _ => hnone.2⟩)
  · intro hcond d
    by_cases hd : d = c
    · subst hd
      constructor
      · rintro ⟨_,hsize⟩
        exact hcond.resolve_right (hsize rfl)
      · exact fun hmem => ⟨hc,fun _ => hpos hmem⟩
    · rw [JavaMap.mem_values,← hother d hd]
      simp [hd]

theorem noLeftovers_channelInactive (h : NoLeftovers past w) (hinv : HubInvariant past w)
    (hsent : outside.sent = true) :
    NoLeftovers (past ++ [.channelInactive outside session])
      (w.step (.channelInactive outside session)) ↔
    LastOrAccompanied past w (.channelInactive outside session) := by
  have hlive : liveSessions (past ++ [.channelInactive outside session]) =
      (liveSessions past).erase session := by simp [liveSessions]
  unfold NoLeftovers LastOrAccompanied
  rw [hlive]
  cases hmap : (liveSessions past).lookup session with
  | none =>
    have hmap' : w.hub.channelMap.lookup session = none := hinv.mapped ▸ hmap
    rw [step_channelInactive_unknown hmap',JavaMap.erase_of_lookup_eq_none hmap]
    refine iff_of_true h fun c hc => ?_
    rw [Option.mem_def,hmap] at hc
    cases hc
  | some c =>
    have hmap' : w.hub.channelMap.lookup session = some c := hinv.mapped ▸ hmap
    obtain ⟨r,client,uid,hc,hlook,_,_,_,huid⟩ := hinv.live hmap'
    rw [step_channelInactive hsent hmap' hc hlook huid]
    refine (noLeftovers_destroyed h hinv hmap).trans ⟨fun hcond d hd => ?_,fun hall => hall c hmap⟩
    obtain rfl := Option.some.inj (hmap.symm.trans hd)
    exact hcond

end step

/-- A run of guarded opens and closes keeps the channels of the hub to those with members
throughout exactly if every close leaves another member of its channel, or no session. -/
theorem noLeftovers_iff (ops : List Op) (h : hub.Meets SessionGuard ops) :
    hub.Always NoLeftovers ops ↔ hub.Meets LastOrAccompanied ops := by
  refine Machine.always_iff_meets (fun c => ?_) (fun past op hpre ih hop => ?_) h
  · simp [hub,World.empty,ChannelsHub.empty,liveSessions]
  · have hinv := hubInvariant_after hpre
    cases op with
    | connectClient outside request session =>
      obtain ⟨hfresh,hsent,cid,uid,hcid,huid⟩ := hop.connectClient
      exact iff_of_true (noLeftovers_connectClient ih hinv hfresh hsent hcid huid) trivial
    | channelInactive outside session => exact noLeftovers_channelInactive ih hinv hop

/-- The only member of `c` leaves while `d` has a member. -/
def leftoverRun : List Op :=
  [.connectClient ⟨0,true⟩ (handshake "c" "u") "s",
    .connectClient ⟨0,true⟩ (handshake "d" "v") "t",.channelInactive ⟨0,true⟩ "s"]

theorem leftoverRun_keeps : hub.Meets SessionGuard leftoverRun ∧
    "c" ∈ (hub.after leftoverRun).hub.channels ∧
    JavaMap.values (liveSessions leftoverRun) = ["d"] ∧
    ¬ hub.Always NoLeftovers leftoverRun := by
  refine ⟨by decide,by decide,by decide,fun h => ?_⟩
  obtain ⟨s,hs⟩ := (h.last "c").mp (by decide)
  have hmem : "c" ∈ JavaMap.values (liveSessions leftoverRun) := JavaMap.mem_values.mpr ⟨s,hs⟩
  exact absurd hmem (by decide)

theorem noLeftovers_two : hub.Always NoLeftovers
    [.connectClient ⟨0,true⟩ (handshake "c" "u") "s",
      .connectClient ⟨0,true⟩ (handshake "c" "v") "t",.channelInactive ⟨0,true⟩ "s",
      .channelInactive ⟨0,true⟩ "t"] :=
  (noLeftovers_iff _ (by decide)).mpr (by decide)

end ImSingle.Connect
