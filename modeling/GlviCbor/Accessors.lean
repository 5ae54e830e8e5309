/-
Taking a value apart: the accessors and the moving functions of `glvi_cbor_value.h`
and `glvi_cbor_value.cpp`, and `CBORTag::tag` and `CBORTag::value`.

`read_back_iff` is the way from the wire to the caller of an accessor: what `as_uint`
and its companions return of a scanned token, for every byte string. `moves_eq` is
about the functions that take the content away. They are documented to move; the
source copies with `std::exchange` and overwrites the value with `CBOR_Undefined`
afterwards, which comes to the same for a target that is not in the value, nor in a cell
that a tag in it leads to.

A `std::reference_wrapper` to the content is modelled as the content.
-/
import GlviCbor.Atoms
import GlviCbor.Position

set_option autoImplicit false

namespace GlviCbor

/-! ## `CBORTag` -/

/-- `class CBORTag`, with the value behind the pointer. -/
structure CBORTag where
  number : CBOR_U64
  storage : Option CBORValue

def CBORTag.tag (tag : CBORTag) : CBOR_U64 := tag.number

/-- `*storage`: undefined for a null pointer. -/
def CBORTag.value (tag : CBORTag) : Option CBORValue := tag.storage

/-! ## Accessors -/

namespace CBORValue

def is_uint : CBORValue → Bool
  | .uint _ => true
  | _ => false

def is_nint : CBORValue → Bool
  | .nint _ => true
  | _ => false

def is_bstr : CBORValue → Bool
  | .bstr _ => true
  | _ => false

def is_tstr : CBORValue → Bool
  | .tstr _ => true
  | _ => false

def is_array : CBORValue → Bool
  | .array _ => true
  | _ => false

def is_map : CBORValue → Bool
  | .map _ => true
  | _ => false

def is_tag : CBORValue → Bool
  | .tag _ _ => true
  | _ => false

def is_simple : CBORValue → Bool
  | .simple _ => true
  | _ => false

def is_float : CBORValue → Bool
  | .float _ => true
  | _ => false

/-- `static_cast<CBOR_U64>` of the alternative. -/
def as_uint : CBORValue → Option CBOR_U64
  | .uint value => some value.value
  | _ => none

def as_nint : CBORValue → Option CBOR_U64
  | .nint value => some value.value
  | _ => none

/-- And `as_bstr_ref`, `as_bstr_cref`. -/
def as_bstr : CBORValue → Option (List UInt8)
  | .bstr storage => some storage
  | _ => none

/-- And `as_tstr_ref`, `as_tstr_cref`. -/
def as_tstr : CBORValue → Option (List UInt8)
  | .tstr storage => some storage
  | _ => none

/-- And `as_tag_ref`, `as_tag_cref`. -/
def as_tag : CBORValue → Option CBORTag
  | .tag number storage => some ⟨number, storage⟩
  | _ => none

/-! ## Moving the content out -/

/-- What the three functions have in common: the content goes to the target, the value
becomes `CBOR_Undefined`. The results are what is returned, the target and the value. -/
def move_content {α : Type*} (content : Option α) (v : CBORValue) (target : α) :
    Bool × α × CBORValue :=
  match content with
  | some c => (true, c, CBOR_Undefined.value)
  | none => (false, target, v)

def move_bstr (v : CBORValue) (target : List UInt8) : Bool × List UInt8 × CBORValue :=
  move_content v.as_bstr v target

def move_tstr (v : CBORValue) (target : List UInt8) : Bool × List UInt8 × CBORValue :=
  move_content v.as_tstr v target

def move_tag (v : CBORValue) (target : CBORTag) : Bool × CBORTag × CBORValue :=
  move_content v.as_tag v target

end CBORValue

/-- A value holds one alternative, and each accessor has something to return for its own. -/
theorem CBORValue.one_alternative (v : CBORValue) :
    ([v.is_uint, v.is_nint, v.is_bstr, v.is_tstr, v.is_array, v.is_map, v.is_tag, v.is_simple,
      v.is_float].filter id).length = 1 ∧
      v.as_uint.isSome = v.is_uint ∧ v.as_nint.isSome = v.is_nint ∧
      v.as_bstr.isSome = v.is_bstr ∧ v.as_tstr.isSome = v.is_tstr ∧
      v.as_tag.isSome = v.is_tag := by
  rcases v <;> exact ⟨rfl, rfl, rfl, rfl, rfl, rfl⟩

/-! ## From the wire to the caller -/

/-- What the accessors tell of the value of a token. -/
theorem accessors_make_value {t : Token} {v : CBORValue} (h : make_value t = some v) :
    (∀ n, v.as_uint = some ⟨n⟩ ↔ t = .Uint n) ∧
      (∀ n, v.as_nint = some ⟨n⟩ ↔ t = .Nint n) ∧
      (∀ bytes, v.as_bstr = some bytes ↔ t = .Bstr bytes ∨ t = .BstrX ∧ bytes = []) ∧
      (∀ units, v.as_tstr = some units ↔ t = .Tstr units ∨ t = .TstrX ∧ units = []) ∧
      v.as_tag.isNone := by
  rcases t <;> simp only [make_value, Option.some.injEq, reduceCtorEq] at h <;> subst h <;>
    simp [CBORValue.as_uint, CBORValue.as_nint, CBORValue.as_bstr, CBORValue.as_tstr,
      CBORValue.as_tag, eq_comm]

/-- The value a caller gets for a byte string that is one scanned token. -/
def ScansToValue (cfg : Config) (bs : List UInt8) (v : CBORValue) : Prop :=
  ∃ t, ScansTo cfg bs t ∧ make_value t = some v

/-- The bytes are an encoding of the token that is scanned under the limits. -/
def EncodingOf (cfg : Config) (t : Token) (bs : List UInt8) : Prop :=
  ∃ form, t.Accepted cfg form ∧ bs = encode t form

theorem scansTo_iff {cfg : Config} {bs : List UInt8} {t : Token} :
    ScansTo cfg bs t ↔ EncodingOf cfg t bs := by
  rw [ScansTo, scan_range_eq_complete_iff]
  simp only [List.append_nil, EncodingOf]

theorem encodingOf_indefinite {cfg : Config} {t : Token} {bs : List UInt8}
    (ht : t.is_indefinite) : EncodingOf cfg t bs ↔ bs = [head_byte t.major 31] := by
  constructor
  · rintro ⟨form, -, rfl⟩
    rw [encode, if_pos ht]
  · rintro rfl
    refine ⟨.immediate, ⟨?_, .inl rfl⟩, ?_⟩
    · rcases t <;> simp [Token.is_indefinite] at ht <;> rfl
    · rw [encode, if_pos ht]

/-- An accessor has something to return for the encodings of the tokens it is about. -/
theorem accessor_iff {α : Type*} {cfg : Config} {bs : List UInt8} {access : CBORValue → Option α}
    {c : α} {about : Token → Prop} (hsome : ∀ t, about t → (make_value t).isSome)
    (hiff : ∀ t v, make_value t = some v → (access v = some c ↔ about t)) :
    (∃ v, ScansToValue cfg bs v ∧ access v = some c) ↔ ∃ t, about t ∧ EncodingOf cfg t bs := by
  constructor
  · rintro ⟨v, ⟨t, hscan, hmake⟩, haccess⟩
    exact ⟨t, (hiff t v hmake).mp haccess, scansTo_iff.mp hscan⟩
  · rintro ⟨t, habout, hencoding⟩
    obtain ⟨v, hmake⟩ := Option.isSome_iff_exists.mp (hsome t habout)
    exact ⟨v, ⟨t, scansTo_iff.mpr hencoding, hmake⟩, (hiff t v hmake).mpr habout⟩

/-- From the wire to the caller. For every setting of the limits and every byte string:
scanning it as one token, making a value of that and asking an accessor returns the
number `n` or the string exactly if the bytes are an encoding of that number or string
that is accepted under the limits. The openers of indefinite strings read as empty
strings, and no value that comes from the wire is a tag. -/
theorem read_back_iff (cfg : Config) (bs : List UInt8) :
    (∀ n, (∃ v, ScansToValue cfg bs v ∧ v.as_uint = some ⟨n⟩) ↔ EncodingOf cfg (.Uint n) bs) ∧
    (∀ n, (∃ v, ScansToValue cfg bs v ∧ v.as_nint = some ⟨n⟩) ↔ EncodingOf cfg (.Nint n) bs) ∧
    (∀ bytes, (∃ v, ScansToValue cfg bs v ∧ v.as_bstr = some bytes) ↔
      EncodingOf cfg (.Bstr bytes) bs ∨ bs = [0x5f] ∧ bytes = []) ∧
    (∀ units, (∃ v, ScansToValue cfg bs v ∧ v.as_tstr = some units) ↔
      EncodingOf cfg (.Tstr units) bs ∨ bs = [0x7f] ∧ units = []) ∧
    ∀ v, ScansToValue cfg bs v → v.as_tag.isNone := by
  have hbstrX : EncodingOf cfg .BstrX bs ↔ bs = [0x5f] := encodingOf_indefinite rfl
  have htstrX : EncodingOf cfg .TstrX bs ↔ bs = [0x7f] := encodingOf_indefinite rfl
  refine ⟨fun n => ?_, fun n => ?_, fun bytes => ?_, fun units => ?_, ?_⟩
  · rw [accessor_iff (by rintro _ rfl; rfl) fun t v hmake => (accessors_make_value hmake).1 n]
    simp
  · rw [accessor_iff (by rintro _ rfl; rfl) fun t v hmake => (accessors_make_value hmake).2.1 n]
    simp
  · rw [accessor_iff (by rintro _ (rfl | ⟨rfl, -⟩) <;> rfl) fun t v hmake =>
      (accessors_make_value hmake).2.2.1 bytes]
    simp [or_and_right, exists_or, and_right_comm, hbstrX]
  · rw [accessor_iff (by rintro _ (rfl | ⟨rfl, -⟩) <;> rfl) fun t v hmake =>
      (accessors_make_value hmake).2.2.2.1 units]
    simp [or_and_right, exists_or, and_right_comm, htstrX]
  · rintro v ⟨t, -, hmake⟩
    exact (accessors_make_value hmake).2.2.2.2

/-! ## A content is moved out once -/

/-- What a caller can hand to the moving functions: an object of one of three types. -/
inductive Content where
  | bstr (storage : List UInt8)
  | tstr (storage : List UInt8)
  | tag (tag : CBORTag)

/-- The two objects are of one type. -/
def Content.SameType : Content → Content → Prop
  | .bstr _, .bstr _ | .tstr _, .tstr _ | .tag _, .tag _ => True
  | _, _ => False

/-- The content of a value that can be moved out of it. -/
def CBORValue.content : CBORValue → Option Content
  | .bstr storage => some (.bstr storage)
  | .tstr storage => some (.tstr storage)
  | .tag number storage => some (.tag ⟨number, storage⟩)
  | _ => none

/-- The moving function for the type of the target: what it returns, the target and the
value afterwards. -/
def CBORValue.move (v : CBORValue) : Content → (Bool × Content) × CBORValue
  | .bstr target => let (ok, target, v) := v.move_bstr target; ((ok, .bstr target), v)
  | .tstr target => let (ok, target, v) := v.move_tstr target; ((ok, .tstr target), v)
  | .tag target => let (ok, target, v) := v.move_tag target; ((ok, .tag target), v)

/-- Any number of such calls on one value. -/
def CBORValue.moves (v : CBORValue) : List Content → List (Bool × Content) × CBORValue
  | [] => ([], v)
  | target :: targets =>
    let (result, v) := v.move target
    let (results, v) := v.moves targets
    (result :: results, v)

theorem CBORValue.move_of_sameType {v : CBORValue} {c target : Content} (h : v.content = some c)
    (hsame : target.SameType c) : v.move target = ((true, c), CBOR_Undefined.value) := by
  rcases v <;> simp only [content, Option.some.injEq, reduceCtorEq] at h <;> subst h <;>
    rcases target <;> first | exact hsame.elim | rfl

theorem CBORValue.move_of_not_sameType {v : CBORValue} {target : Content}
    (h : ∀ c, v.content = some c → ¬ target.SameType c) :
    v.move target = ((false, target), v) := by
  rcases v <;> rcases target <;> first | rfl | exact absurd trivial (h _ rfl)

/-- A refused call leaves target and value alone, and any number of them does. -/
theorem CBORValue.moves_of_not_sameType {v : CBORValue} {targets : List Content}
    (h : ∀ target ∈ targets, ∀ c, v.content = some c → ¬ target.SameType c) :
    v.moves targets = (targets.map fun target => (false, target), v) := by
  induction targets with
  | nil => rfl
  | cons target targets ih =>
    rw [List.forall_mem_cons] at h
    rw [moves, move_of_not_sameType h.1]
    dsimp only
    rw [ih h.2, List.map_cons]

/-- Moving out is exclusive. Of any calls of `move_bstr`, `move_tstr` and `move_tag` on a
value, with any targets that are neither in the value nor in a cell it leads to, at most
one succeeds: the first one for
the type of the content. It leaves the whole content in its target and `CBOR_Undefined`
in the value; every other call returns `false` and leaves its target alone, and if there
is none for the type of the content, the value keeps it. -/
theorem moves_eq (v : CBORValue) (targets : List Content) :
    (∃ before target after c, targets = before ++ target :: after ∧
      v.content = some c ∧ target.SameType c ∧ (∀ other ∈ before, ¬ other.SameType c) ∧
      v.moves targets = ((before.map fun other => (false, other)) ++
        (true, c) :: after.map fun other => (false, other), CBOR_Undefined.value)) ∨
    ((∀ c, v.content = some c → ∀ target ∈ targets, ¬ target.SameType c) ∧
      v.moves targets = (targets.map fun target => (false, target), v)) := by
  induction targets with
  | nil => exact .inr ⟨by simp, rfl⟩
  | cons target targets ih =>
    by_cases hsame : ∃ c, v.content = some c ∧ target.SameType c
    · obtain ⟨c, hc, hsame⟩ := hsame
      -- the value is undefined from here on, and has nothing to give away
      have hnone : ∀ other ∈ targets, ∀ c, CBOR_Undefined.value.content = some c →
          ¬ other.SameType c := by
        rintro _ _ _ ⟨⟩
      refine .inl ⟨[], target, targets, c, rfl, hc, hsame, by simp, ?_⟩
      rw [CBORValue.moves, CBORValue.move_of_sameType hc hsame]
      dsimp only
      rw [CBORValue.moves_of_not_sameType hnone, List.map_nil, List.nil_append]
    · have hother : ∀ c, v.content = some c → ¬ target.SameType c :=
        fun c hc h => hsame ⟨c, hc, h⟩
      have hmoves : v.moves (target :: targets) =
          ((false, target) :: (v.moves targets).1, (v.moves targets).2) := by
        rw [CBORValue.moves, CBORValue.move_of_not_sameType hother]
      rw [hmoves]
      rcases ih with ⟨before, t, after, c, rfl, hc, ht, hbefore, hrest⟩ | ⟨hno, hrest⟩
      · refine .inl ⟨target :: before, t, after, c, rfl, hc, ht, ?_, ?_⟩
        · rw [List.forall_mem_cons]
          exact ⟨hother c hc, hbefore⟩
        · rw [hrest]
          rfl
      · refine .inr ⟨fun c hc => ?_, ?_⟩
        · rw [List.forall_mem_cons]
          exact ⟨hother c hc, hno c hc⟩
        · rw [hrest]
          rfl

end GlviCbor
