import Mathlib

/-! im-common's `DefaultTokenService`: the token of a channel, a user and a time is the digest
of their texts run together. -/
namespace ImSingle.Common.DefaultTokenService

/-- What a reference adds to a concatenation. -/
def text : Option String → String
  | some s => s
  | none => "null"

/-! `md5` stands for `Md5Utils.create`; `sign` and `expire` are the service's configuration. -/
section service
variable (md5 : String → String) (sign : String) (expire : Int64)

def create (channelId : Option String) (currentTime : Int64) (uid : Option String) : String :=
  md5 (text channelId ++ text uid ++ text channelId ++ toString currentTime ++ sign)

/-- Seconds, against a clock that counts milliseconds. -/
def checkTime (currentTimeMillis time : Int64) : Bool :=
  let currentTime := currentTimeMillis / 1000
  currentTime < time + expire && currentTime > time - 60

def check (currentTimeMillis : Int64) (token : String) (channelId : Option String)
    (time : Int64) (uid : Option String) : Bool :=
  token == create md5 sign channelId time uid && checkTime expire currentTimeMillis time

end service

/-- The four texts a token is made of give the same characters. -/
def SameText (channelId uid : Option String) (time : Int64) (channelId' uid' : Option String)
    (time' : Int64) : Prop :=
  text channelId ++ text uid ++ text channelId ++ toString time =
    text channelId' ++ text uid' ++ text channelId' ++ toString time'

/-- Some moment lies in the time's period of validity. -/
def Acceptable (expire time : Int64) : Prop :=
  ∃ currentTimeMillis, checkTime expire currentTimeMillis time = true

variable {md5 : String → String} {sign : String} {expire : Int64}
  {channelId uid channelId' uid' : Option String} {time time' : Int64}

theorem append_inj {a b c d : String} (h : a ++ b = c ++ d) (hl : a.length = c.length) :
    a=c ∧ b=d := by
  have h := congrArg String.toList h
  rw [String.toList_append,String.toList_append] at h
  obtain ⟨hac,hbd⟩ := List.append_inj h (by simpa only [String.length_toList] using hl)
  exact ⟨String.toList_inj.mp hac,String.toList_inj.mp hbd⟩

/-- The sign is behind every text, so it tells no two of them apart. -/
theorem create_inj (hmd5 : Function.Injective md5) (sign : String) :
    create md5 sign channelId time uid = create md5 sign channelId' time' uid' ↔
      SameText channelId uid time channelId' uid' time' := by
  constructor
  · intro h
    exact (String.append_left_inj _).mp (hmd5 h)
  · intro h
    rw [create,create,h]

/-- Channel ids of one length and times of one number of digits keep the parts of a text
apart. -/
theorem sameText_iff (hid : (text channelId).length = (text channelId').length)
    (htime : (toString time).length = (toString time').length) :
    SameText channelId uid time channelId' uid' time' ↔
      text channelId = text channelId' ∧ text uid = text uid' ∧ time=time' := by
  constructor
  · intro h
    have hlen := congrArg String.length h
    simp only [String.length_append] at hlen
    obtain ⟨hfront,ht⟩ := append_inj h (by simp only [String.length_append]; omega)
    obtain ⟨hmiddle,hc⟩ := append_inj hfront (by simp only [String.length_append]; omega)
    obtain ⟨_,hu⟩ := append_inj hmiddle hid
    exact ⟨hc,hu,Int64.toInt_inj.mp (Int.repr_inj.mp ht)⟩
  · rintro ⟨hc,hu,rfl⟩
    rw [SameText,hc,hu]

/-- No moment accepts a token for another text, and only a time that is never valid rejects one
for the same text. -/
theorem check_create_iff (hmd5 : Function.Injective md5) :
    (∀ currentTimeMillis, check md5 sign expire currentTimeMillis
        (create md5 sign channelId time uid) channelId' time' uid' = false) ↔
      ¬ SameText channelId uid time channelId' uid' time' ∨ ¬ Acceptable expire time' := by
  rw [← create_inj hmd5 sign]
  constructor
  · intro h
    by_contra hboth
    rw [not_or,not_not,not_not] at hboth
    obtain ⟨hsame,now,hnow⟩ := hboth
    have hcheck := h now
    rw [check,hsame,hnow,beq_self_eq_true,Bool.and_self] at hcheck
    exact Bool.noConfusion hcheck
  · intro h now
    rw [check,Bool.and_eq_false_iff]
    apply h.imp
    · intro hne
      exact beq_false_of_ne hne
    · intro hnever
      by_contra hnow
      exact hnever ⟨now,by simpa using hnow⟩

/-! ## A digest of texts -/

theorem injective_update {f : String → String} (hf : Function.Injective f) {k v : String}
    (hv : ∀ x, f x ≠ v) : Function.Injective (Function.update f k v) := by
  intro a b h
  by_cases ha : a=k <;> by_cases hb : b=k
  · rw [ha,hb]
  · rw [ha,Function.update_self,Function.update_of_ne hb] at h
    exact absurd h.symm (hv b)
  · rw [hb,Function.update_self,Function.update_of_ne ha] at h
    exact absurd h (hv a)
  · rw [Function.update_of_ne ha,Function.update_of_ne hb] at h
    exact hf h

theorem update_ne {f : String → String} {k v w : String} (hf : ∀ x, f x ≠ w) (hv : v≠w)
    (x : String) : Function.update f k v x ≠ w := by
  by_cases hx : x=k
  · rwa [hx,Function.update_self]
  · rw [Function.update_of_ne hx]
    exact hf x

/-- MD5 on three texts; on the others it only has to tell them apart. -/
def sampleMd5 : String → String :=
  let other := fun input => "#" ++ input
  let b := Function.update other "1b11672531201123456" "5d2c30d9c1fa6caadbb082fb3dbf5e1c"
  let c := Function.update b "1c11672531201123456" "4d3cea36a7bbe8ee149da7d3316bfe9f"
  Function.update c "1a1b1a11672531201123456" "739fee4a172bffeb2f1d0d15c7d8d9c4"

theorem sampleMd5_injective : Function.Injective sampleMd5 := by
  have hother : ∀ w : String, w.toList.head? ≠ some '#' → ∀ x, "#" ++ x ≠ w := by
    intro w hw x h
    apply hw
    rw [← h,String.toList_append]
    rfl
  apply injective_update
  · apply injective_update
    · apply injective_update
      · intro a b h
        exact (String.append_right_inj _).mp h
      · exact hother _ (by decide)
    · exact update_ne (hother _ (by decide)) (by decide)
  · exact update_ne (update_ne (hother _ (by decide)) (by decide)) (by decide)

/-- In its validity period the token of one user of a channel is no token of another user. -/
theorem check_create_other_user :
    checkTime 300 1672531201000 1672531201 = true ∧
      check sampleMd5 "123456" 300 1672531201000
        (create sampleMd5 "123456" (some "1") 1672531201 (some "b")) (some "1") 1672531201
        (some "c") = false := by
  have hother : ¬ SameText (some "1") (some "b") 1672531201 (some "1") (some "c") 1672531201 := by
    rw [SameText]
    decide +kernel
  exact ⟨by decide,(check_create_iff sampleMd5_injective).mpr (.inl hother) 1672531201000⟩

/-- A user id with the channel id in it takes the place of a longer channel id. -/
theorem token_of_another_channel :
    Function.Injective sampleMd5 ∧
      (some "1a1",some "b") ≠ (some "1",some "a1b1a") ∧
      check sampleMd5 "123456" 300 1672531201000
        (create sampleMd5 "123456" (some "1a1") 1672531201 (some "b")) (some "1") 1672531201
        (some "a1b1a") = true := by
  refine ⟨sampleMd5_injective,by decide,?_⟩
  have hsame : SameText (some "1a1") (some "b") 1672531201 (some "1") (some "a1b1a")
      1672531201 := by
    rw [SameText]
    decide +kernel
  have htime : checkTime 300 1672531201000 1672531201 = true := by decide
  rw [check,(create_inj sampleMd5_injective _).mpr hsame,beq_self_eq_true,htime,Bool.and_self]

end ImSingle.Common.DefaultTokenService
