import ImSingle.LoadTest.Reading

/-! The fields of a message: each is read, or skipped, as it was written, and the loop over them
ends where the message does. -/
namespace ImSingle.LoadTest
open Library Wire

namespace BinaryReader

section header
variable {r : BinaryReader} {a b : ℤ} {as bs : Bytes}

theorem Ahead.at' (h : r.Ahead bs) (a b : ℤ) : (r.at' a b).Ahead bs := ⟨h.byte,h.limit⟩

theorem skip_at' (n : ℤ) : (r.at' a b).skip n = (r.skip n).at' a b := rfl

theorem at'_at' (a' b' : ℤ) : (r.at' a b).at' a' b' = r.at' a' b' := rfl

theorem skip_append : (r.skip as.length).skip bs.length = r.skip (as ++ bs).length := by
  rw [skip_skip,List.length_append,Int.natCast_add]

end header

section read
variable {r : BinaryReader} {a : ℤ}

theorem readSignedVarint64_ofInt64 {x : Int64} (h : r.Ahead (encodeVarint (ofInt64 x))) :
    r.readSignedVarint64 = some (nearest x.toInt,r.skip (encodeVarint (ofInt64 x)).length) := by
  have hsplit := readSplitVarint64_encodeVarint h x.toUInt64.toNat_lt
  rw [readSignedVarint64,hsplit,Option.map_some,joinInt64_ofInt64]

theorem readInt64_ofInt64 {x : Int64} (h : r.Ahead (encodeVarint (ofInt64 x))) :
    (r.at' a WireType.VARINT).readInt64 =
      some (nearest x.toInt,(r.skip (encodeVarint (ofInt64 x)).length).at' a WireType.VARINT) :=
  (if_pos rfl).trans (readSignedVarint64_ofInt64 (h.at' a WireType.VARINT))

theorem readEnum_ofInt64 {x : Int64} (h : r.Ahead (encodeVarint (ofInt64 x))) :
    (r.at' a WireType.VARINT).readEnum =
      some (nearest x.toInt,(r.skip (encodeVarint (ofInt64 x)).length).at' a WireType.VARINT) :=
  (if_pos rfl).trans (readSignedVarint64_ofInt64 (h.at' a WireType.VARINT))

/-- The length of bytes that lie ahead, as a message or a string has it before it. -/
theorem readLength {bs : Bytes} (h : r.Ahead (encodeVarint bs.length ++ bs))
    (hsize : bs.length < 2^32) (b : ℤ) :
    (r.at' a b).readUnsignedVarint32 =
      some ((bs.length : ℤ),(r.skip (encodeVarint bs.length).length).at' a b) :=
  readUnsignedVarint32_encodeVarint (h.left.at' a b) hsize

theorem readString_utf8 {s : String} (h : r.Ahead (encodeVarint (utf8 s).length ++ utf8 s))
    (hsize : (utf8 s).length < 2^32) :
    (r.at' a WireType.DELIMITED).readString =
      some (utf16 s,(r.skip (encodeVarint (utf8 s).length ++ utf8 s).length).at' a
        WireType.DELIMITED) := by
  have htext := readText_utf8 s (h.right.at' a WireType.DELIMITED)
  refine (if_pos rfl).trans ?_
  rw [readLength h hsize]
  refine (congrArg some htext).trans ?_
  rw [skip_at',skip_append]

/-- A message that is read off its bytes is read wherever they lie. -/
theorem readMessage_ahead {α : Type} {read : BinaryReader → Option (α × BinaryReader)} {bs : Bytes}
    {value : α} (h : r.Ahead (encodeVarint bs.length ++ bs)) (hsize : bs.length < 2^32)
    (hread : ∀ r' : BinaryReader, r'.Ahead bs → r'.cursor + bs.length = r'.limit →
      ∃ a b, read r' = some (value,(r'.skip bs.length).at' a b)) :
    ∃ a' b', (r.at' a WireType.DELIMITED).readMessage read =
      some (value,(r.skip (encodeVarint bs.length ++ bs).length).at' a' b') := by
  have hinner := hread { (r.skip (encodeVarint bs.length).length).at' a WireType.DELIMITED with
    limit := ((r.skip (encodeVarint bs.length).length).at' a WireType.DELIMITED).cursor +
      bs.length }
    ⟨h.right.byte,Int.le_refl _⟩ rfl
  obtain ⟨a',b',hvalue⟩ := hinner
  refine ⟨a',b',(if_pos rfl).trans ?_⟩
  rw [readLength h hsize]
  simp only [Option.bind_eq_bind,Option.bind_some]
  simp only at hvalue
  rw [hvalue,← skip_append]
  rfl

end read

/-! ## Fields that are skipped -/

theorem length_takeWhile_range {p : ℕ → Bool} {m n : ℕ} (hlt : m < n) (hp : ∀ i < m, p i = true)
    (hm : p m = false) : ((List.range n).takeWhile p).length = m := by
  obtain ⟨k,rfl⟩ := Nat.exists_eq_add_of_lt hlt
  rw [Nat.add_assoc,List.range_add,List.takeWhile_append_of_pos fun i hi =>
    hp i (List.mem_range.mp hi),List.range_succ_eq_map,List.map_cons,List.takeWhile_cons_of_neg]
  · simp
  · simpa using hm

theorem bits_top (b : Option UInt8) : bits b 128 ≠ 0 ↔ goesOn b = true := by
  cases b with
  | none => decide
  | some b =>
    have htop : b.toNat &&& 128 = 0 ↔ b.toNat < 128 := and_top (k := 7) b.toNat_lt
    simp only [bits,goesOn,Option.map_some,Option.getD_some,Option.any_some,decide_eq_true_iff]
    omega

section skip
variable {r : BinaryReader} {n : ℕ}

theorem skipVarint_encodeVarint (h : r.Ahead (encodeVarint n)) :
    r.skipVarint = r.skip (encodeVarint n).length := by
  have hpos := List.length_pos_of_ne_nil (encodeVarint_ne_nil n)
  obtain ⟨m,hm⟩ := Nat.exists_eq_add_one_of_ne_zero (Nat.ne_of_gt hpos)
  have hlast : m = 0 ∨ 128^m ≤ n := by
    by_contra hnot
    have hdigit := getElem?_encodeVarint n m
    rw [if_neg hnot,List.getElem?_eq_none_iff] at hdigit
    omega
  have hlt : n < 128^(m + 1) := by
    by_contra hnot
    have hdigit := getElem?_encodeVarint n (m + 1)
    rw [if_pos (.inr (Nat.le_of_not_lt hnot)),List.getElem?_eq_some_iff] at hdigit
    obtain ⟨hi,-⟩ := hdigit
    omega
  have hbytes : m < r.bytes.length := by
    have hcursor := h.cursor_nonneg (encodeVarint_ne_nil n)
    have hbyte := h.digit hlast
    rw [byte,if_pos (by omega),List.getElem?_eq_some_iff] at hbyte
    obtain ⟨hi,-⟩ := hbyte
    omega
  have hgoes (i : ℕ) (hi : i = 0 ∨ 128^i ≤ n) : goesOn (r.byte i) = true ↔ 128^(i + 1) ≤ n := by
    rw [(Digits.next h hi).more]
    simp
  rw [skipVarint,length_takeWhile_range hbytes,hm]
  · intro i hi
    have hle : 128^(i + 1) ≤ n := by
      have hpow : 128^(i + 1) ≤ 128^m := Nat.pow_le_pow_right (by decide) hi
      have hm0 := hlast.resolve_left (by omega)
      omega
    have hi' : 128^i ≤ n := Nat.le_trans (Nat.pow_le_pow_right (by decide) (Nat.le_succ i)) hle
    exact decide_eq_true ((bits_top _).mpr ((hgoes i (.inr hi')).mpr hle))
  · refine decide_eq_false fun htop => ?_
    have hle := (hgoes m hlast).mp ((bits_top _).mp htop)
    omega

/-- The length of a delimited field is one the reader takes for a length. -/
def Sized : Field → Prop
  | .varint _ value => value < 2^64
  | .bytes _ value => value.length < 2^32

instance : DecidablePred Sized
  | .varint _ _ => inferInstanceAs (Decidable (_ < _))
  | .bytes _ _ => inferInstanceAs (Decidable (_ < _))

theorem skipField_payload {f : Field} (h : r.Ahead f.payload) (hf : Sized f) (k : ℕ) (a : ℤ) :
    skipField (k + 1) (r.at' a f.wireType) =
      some ((r.skip f.payload.length).at' a f.wireType) := by
  cases f with
  | varint number value =>
    have hwire : (r.at' a (Field.varint number value).wireType).nextWireType =
      WireType.VARINT := rfl
    rw [skipField,if_pos hwire,skipVarint_encodeVarint (h.at' a _)]
    rfl
  | bytes number value =>
    have hwire : (r.at' a (Field.bytes number value).wireType).nextWireType =
      WireType.DELIMITED := rfl
    have hadvance : ((r.skip (encodeVarint value.length).length).at' a WireType.DELIMITED).advance
        value.length = some (((r.skip (encodeVarint value.length).length).skip
          value.length).at' a WireType.DELIMITED) := if_pos h.right.limit
    rw [skipField,if_neg (by rw [hwire]; decide),if_neg (by rw [hwire]; decide),if_pos hwire]
    have hlength : (r.at' a (Field.bytes number value).wireType).readUnsignedVarint32 = _ :=
      readLength h hf WireType.DELIMITED
    rw [hlength]
    refine hadvance.trans ?_
    rw [skip_append]
    rfl

end skip

section fields
variable {r : BinaryReader} {f : Field}

theorem nextField_encodeField (h : r.Ahead (encodeField f)) (hf : f.number < 2^29) :
    r.nextField = some (true,(r.skip (encodeVarint (8 * f.number + f.wireType)).length).at'
      f.number f.wireType) := by
  have hcursor := h.cursor_nonneg (encodeField_ne_nil f)
  have hlimit := h.limit
  have hpos := List.length_pos_of_ne_nil (encodeField_ne_nil f)
  rw [encodeField_eq] at h
  have hwire : f.wireType = 0 ∨ f.wireType = 2 := by
    cases f with
    | varint => exact .inl rfl
    | bytes => exact .inr rfl
  have hkey := readUnsignedVarint32_encodeVarint h.left (by omega)
  have hnat : (((8 * f.number + f.wireType : ℕ) : ℤ) % 2^32).toNat =
      8 * f.number + f.wireType := by omega
  have hand : (8 * f.number + f.wireType) &&& 7 = f.wireType := by
    rw [show 7 = 2^3 - 1 from rfl,Nat.and_two_pow_sub_one_eq_mod]
    omega
  have hshift : (8 * f.number + f.wireType) >>> 3 = f.number := by
    rw [Nat.shiftRight_eq_div_pow]
    omega
  have hmem : ((f.wireType : ℕ) : ℤ) ∈ [WireType.VARINT,WireType.FIXED32,WireType.FIXED64,
      WireType.DELIMITED,WireType.START_GROUP,WireType.END_GROUP] := by
    obtain hw | hw := hwire <;> rw [hw] <;> decide
  rw [nextField,if_neg (by omega),if_neg (by omega),hkey]
  simp only [Option.bind_eq_bind,Option.bind_some,hnat,hand,hshift]
  rw [if_neg (not_not.mpr hmem)]
  rfl

theorem lt_fuel {fields : List Field} (h : r.Ahead (encode fields)) : fields.length < r.fuel := by
  have hlength := length_le_encode fields
  have hlimit := h.limit
  rw [fuel]
  by_cases hne : encode fields = []
  · rw [hne,List.length_nil] at hlength
    omega
  · have hcursor := h.cursor_nonneg hne
    omega

/-- Reading a field takes its bytes, and makes of the message what `apply` does. -/
structure Reads {α : Type} (cases : Cases α) (apply : α → Field → α) (f : Field) : Prop where
  number : f.number < 2^29
  read : ∀ msg (r : BinaryReader), r.Ahead f.payload → ∃ a b,
    readField cases msg (r.at' f.number f.wireType) =
      some (apply msg f,(r.skip f.payload.length).at' a b)

section Reads
variable {α β : Type} {cases : Cases α} {apply : α → Field → α}

theorem Reads.of_readAs {read : BinaryReader → Option (β × BinaryReader)} {set : α → β → α}
    {value : β} (hnumber : f.number < 2^29)
    (hcase : cases.lookup (f.number : ℤ) = some (readAs read set))
    (hread : ∀ r : BinaryReader, r.Ahead f.payload → ∃ a b,
      read (r.at' f.number f.wireType) = some (value,(r.skip f.payload.length).at' a b))
    (hset : ∀ msg, set msg value = apply msg f) : Reads cases apply f where
  number := hnumber
  read msg r h := by
    obtain ⟨a,b,hvalue⟩ := hread r h
    refine ⟨a,b,?_⟩
    have hlookup : cases.lookup (r.at' f.number f.wireType).nextField_ =
      some (readAs read set) := hcase
    simp only [readField,hlookup,readAs]
    rw [hvalue,Option.map_some,hset]

/-- A field that the message does not know. -/
theorem Reads.of_skip (hnumber : f.number < 2^29) (hf : Sized f)
    (hcase : cases.lookup (f.number : ℤ) = none) (hsame : ∀ msg, msg = apply msg f) :
    Reads cases apply f where
  number := hnumber
  read msg r h := by
    refine ⟨f.number,f.wireType,?_⟩
    have hlookup : cases.lookup (r.at' f.number f.wireType).nextField_ = none := hcase
    have hskip : skipField (r.at' f.number f.wireType).fuel (r.at' f.number f.wireType) = _ :=
      skipField_payload h hf _ _
    simp only [readField,hlookup]
    rw [hskip,Option.map_some,← hsame]

section kinds
variable {n : ℕ} {x : Int64} {s : String}

theorem Reads.enum {set : α → ℤ → α} (hn : n < 2^29)
    (hcase : cases.lookup (n : ℤ) = some (readAs readEnum set))
    (hset : ∀ msg, set msg (nearest x.toInt) = apply msg (.varint n (ofInt64 x))) :
    Reads cases apply (.varint n (ofInt64 x)) :=
  .of_readAs hn hcase (fun _ h => ⟨_,_,readEnum_ofInt64 h⟩) hset

theorem Reads.int64 {set : α → ℤ → α} (hn : n < 2^29)
    (hcase : cases.lookup (n : ℤ) = some (readAs readInt64 set))
    (hset : ∀ msg, set msg (nearest x.toInt) = apply msg (.varint n (ofInt64 x))) :
    Reads cases apply (.varint n (ofInt64 x)) :=
  .of_readAs hn hcase (fun _ h => ⟨_,_,readInt64_ofInt64 h⟩) hset

theorem Reads.string {set : α → JsString → α} (hn : n < 2^29) (hsize : (utf8 s).length < 2^32)
    (hcase : cases.lookup (n : ℤ) = some (readAs readString set))
    (hset : ∀ msg, set msg (utf16 s) = apply msg (.bytes n (utf8 s))) :
    Reads cases apply (.bytes n (utf8 s)) :=
  .of_readAs hn hcase (fun _ h => ⟨_,_,readString_utf8 h hsize⟩) hset

end kinds
end Reads

variable {α : Type} {cases : Cases α} {apply : α → Field → α}

/-- The loop over the fields ends at the limit, with all of them applied in their order. -/
theorem deserialize_encode {fields : List Field}
    (hfields : ∀ f ∈ fields, Reads cases apply f)
    (h : r.Ahead (encode fields)) (hend : r.cursor + (encode fields).length = r.limit) {k : ℕ}
    (hk : fields.length < k) (msg : α) : ∃ a b, deserialize cases k msg r =
      some (fields.foldl apply msg,(r.skip (encode fields).length).at' a b) := by
  induction fields generalizing r k msg with
  | nil =>
    obtain ⟨k,rfl⟩ := Nat.exists_eq_add_one_of_ne_zero (Nat.ne_zero_of_lt hk)
    refine ⟨r.nextField_,r.nextWireType,?_⟩
    have hcursor : r.cursor = r.limit := by simpa [encode] using hend
    have hstop : r.nextField = some (false,r) := if_pos hcursor
    rw [deserialize,hstop]
    simp [encode,skip,at']
  | cons f fields ih =>
    obtain ⟨k,rfl⟩ := Nat.exists_eq_add_one_of_ne_zero (Nat.ne_zero_of_lt hk)
    have hencode : encode (f :: fields) = encodeField f ++ encode fields := rfl
    rw [hencode] at h hend ⊢
    have hreads := hfields f List.mem_cons_self
    have hnext := nextField_encodeField h.left hreads.number
    have hleft := h.left
    rw [encodeField_eq] at hleft
    obtain ⟨a,b,hread⟩ := hreads.read msg _ hleft.right
    rw [skip_append,← encodeField_eq] at hread
    have hrest := ih (fun f hf => hfields f (List.mem_cons_of_mem _ hf)) (h.right.at' a b)
      (by rw [List.length_append] at hend; simp only [at',skip]; omega) (by simpa using hk)
      (apply msg f)
    obtain ⟨a',b',hrest⟩ := hrest
    refine ⟨a',b',?_⟩
    have hgroup : ((f.wireType : ℕ) : ℤ) ≠ WireType.END_GROUP := by
      cases f <;> simp [Field.wireType,WireType.END_GROUP]
    rw [deserialize,hnext]
    simp only [Option.bind_eq_bind,Option.bind_some,Bool.not_true,Bool.false_or]
    rw [if_neg (by simp [at',hgroup]),hread]
    simp only [Option.bind_some]
    rw [hrest,skip_at',skip_append,at'_at',List.foldl_cons]

/-- A message field, whose own fields are read in the same way. -/
theorem Reads.message {β : Type} {inner : Cases β} {applyInner : β → Field → β}
    {set : α → β → α} {n : ℕ} {fields : List Field} {empty : β} (hn : n < 2^29)
    (hsize : (encode fields).length < 2^32) (hfields : ∀ f ∈ fields, Reads inner applyInner f)
    (hcase : cases.lookup (n : ℤ) = some (readAs
      (readMessage · fun r => deserialize inner r.fuel empty r) set))
    (hset : ∀ msg, set msg (fields.foldl applyInner empty) =
      apply msg (.bytes n (encode fields))) : Reads cases apply (.bytes n (encode fields)) :=
  .of_readAs hn hcase (fun _ h => readMessage_ahead h hsize fun _ hbytes hend =>
    deserialize_encode hfields hbytes hend (lt_fuel hbytes) empty) hset

end fields
end BinaryReader
end ImSingle.LoadTest
