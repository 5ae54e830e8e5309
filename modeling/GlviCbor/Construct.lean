/-
Building a `CBORValue` or a `CBORTag` from an object.

`CBORValue` has two constructor templates, `Type&&` and `Type const&`, documented as
the moving and the copying one; `CBORTag` has three. But a deduced `Type&&` is a
forwarding reference. It binds a non-const lvalue better than `Type const&` does, and
then moves from it, so the copying constructors are taken for const lvalues only.

The model follows the calls on explicit state: which constructor overload resolution
takes, and what is left of the argument. A moved-from vector, string or
`std::shared_ptr` is empty. `construct_lvalue_iff` says what a caller who keeps the
object sees of it: nothing if the object had nothing to give away, and only then.
-/
import GlviCbor.Lib.Overload
import GlviCbor.Parser

set_option autoImplicit false

namespace GlviCbor

open Overload

/-! ## Objects -/

/-- An object of one of the types a `CBORValue` can hold. The copies of a `CBORTag`
share what `storage` points to; here it is the content. -/
inductive Alternative where
  | uint (object : CBORUint)
  | nint (object : CBORNint)
  | bstr (storage : List UInt8)
  | tstr (storage : List UInt8)
  | array (elements : List CBORValue)
  | map (entries : List CBORValue)
  | tag (number : CBOR_U64) (storage : Option CBORValue)
  | simple (number : UInt8)
  | float (value : UInt64)

/-- The value that holds the object in its `storage`. -/
def Alternative.value : Alternative → CBORValue
  | .uint object => .uint object
  | .nint object => .nint object
  | .bstr storage => .bstr storage
  | .tstr storage => .tstr storage
  | .array elements => .array elements
  | .map entries => .map entries
  | .tag number storage => .tag number storage
  | .simple number => .simple number
  | .float value => .float value

/-- The object in the `storage` of a value. -/
def CBORValue.alternative : CBORValue → Alternative
  | .uint object => .uint object
  | .nint object => .nint object
  | .bstr storage => .bstr storage
  | .tstr storage => .tstr storage
  | .array elements => .array elements
  | .map entries => .map entries
  | .tag number storage => .tag number storage
  | .simple number => .simple number
  | .float value => .float value

@[simp] theorem Alternative.value_alternative (x : Alternative) : x.value.alternative = x := by
  rcases x <;> rfl

@[simp] theorem CBORValue.alternative_value (v : CBORValue) : v.alternative.value = v := by
  rcases v <;> rfl

/-- Implicit and defaulted move constructors, member by member. -/
instance : Movable Alternative where
  moved_from
    | .bstr _ => .bstr []
    | .tstr _ => .tstr []
    | .array _ => .array []
    | .map _ => .map []
    | .tag number _ => .tag number none
    | x => x

/-- The move constructor of the variant moves the object inside. -/
instance : Movable CBORValue where
  moved_from v := (Movable.moved_from v.alternative).value

/-! ## The constructors of `CBORValue` -/

/-- The two constructor templates. -/
inductive ValueConstructor where
  | move_construct
  | copy_construct
  deriving DecidableEq, Repr

/-- `CBORValue(Type const&)` and `CBORValue(Type&&)`. Where both bind alike, the
former is the more special template. -/
def CBORValue.constructors (a : Category) : List (Candidate ValueConstructor) :=
  [⟨.copy_construct, const_ref, false⟩, ⟨.move_construct, forwarding_ref a, false⟩]

/-- `CBORValue(x)`: the new value, and `x` afterwards. -/
def CBORValue.construct (a : Category) (x : Alternative) : Option (CBORValue × Alternative) :=
  match resolve a (CBORValue.constructors a) with
  -- `storage(std::move(value))`
  | some .move_construct =>
    let (object, x) := transfer (forwarding_ref a).name.move x
    some (object.value, x)
  -- `storage(value)`
  | some .copy_construct =>
    let (object, x) := transfer const_ref.name x
    some (object.value, x)
  | none => none

/-! ## The constructors of `CBORTag` -/

/-- The three constructors, by their second parameter. -/
inductive TagConstructor where
  | value_type_rref
  | value_type_const_ref
  | major_type
  deriving DecidableEq, Repr

/-- What a `CBORTag` is made of: a `CBORValue`, or an object of another type. -/
inductive TagArgument where
  | value (v : CBORValue)
  | object (x : Alternative)

/-- For an object of another type the first two need a `CBORValue` made from it. The
template is the last resort where all bind alike. -/
def CBORTag.constructors (a : Category) (v : TagArgument) : List (Candidate TagConstructor) :=
  let converts := match v with
    | .value _ => false
    | .object _ => true
  [⟨.value_type_rref, rvalue_ref, converts⟩, ⟨.value_type_const_ref, const_ref, converts⟩,
    ⟨.major_type, forwarding_ref a, false⟩]

/-- `std::make_shared<CBORValue>` of an expression: copy or move construction from a
`CBORValue`, one of the templates above from any other object. -/
def make_shared (a : Category) : TagArgument → Option (CBORValue × TagArgument)
  | .value v =>
    let (content, v) := transfer a v
    some (content, .value v)
  | .object x => (CBORValue.construct a x).map fun p => (p.1, .object p.2)

/-- `CBORTag(n, v)`: the new tag, and `v` afterwards. -/
def CBORTag.construct (n : CBOR_U64) (a : Category) (v : TagArgument) :
    Option (Alternative × TagArgument) :=
  let made := match resolve a (CBORTag.constructors a v) with
    | some .value_type_rref =>
      match v with
      | .value _ => make_shared rvalue_ref.name.move v
      -- the parameter is a temporary, which is gone afterwards
      | .object _ => make_shared a v
    | some .value_type_const_ref =>
      match v with
      | .value _ => make_shared const_ref.name v
      | .object _ => make_shared a v
    -- `std::make_shared<value_type>(std::move(v))`
    | some .major_type => make_shared (forwarding_ref a).name.move v
    | none => none
  made.map fun p => (.tag n (some p.1), p.2)

/-! ## What a constructor does -/

/-- What a tag made of the argument points to. -/
def TagArgument.content : TagArgument → CBORValue
  | .value v => v
  | .object x => x.value

instance : Movable TagArgument where
  moved_from
    | .value v => .value (Movable.moved_from v)
    | .object x => .object (Movable.moved_from x)

/-- The copying constructor is taken for const lvalues only. -/
theorem CBORValue.resolve_constructors (a : Category) :
    resolve a (CBORValue.constructors a) =
      some (if a = const_lvalue then .copy_construct else .move_construct) := by
  obtain ⟨_ | _, _ | _⟩ := a <;> rfl

/-- The template is taken for every object of another type, for non-const lvalues
and for const rvalues. -/
theorem CBORTag.resolve_constructors (a : Category) (v : TagArgument) :
    resolve a (CBORTag.constructors a v) = some (match v with
      | .object _ => .major_type
      | .value _ =>
        if a = const_lvalue then .value_type_const_ref
        else if a = ⟨false, true⟩ then .value_type_rref
        else .major_type) := by
  rcases v with v | x <;> obtain ⟨_ | _, _ | _⟩ := a <;> rfl

/-- The new value has the object's content. Whatever is not const is moved from, an
lvalue as well. -/
theorem CBORValue.construct_eq (a : Category) (x : Alternative) :
    CBORValue.construct a x = some (x.value, if a.const then x else Movable.moved_from x) := by
  unfold CBORValue.construct
  rw [CBORValue.resolve_constructors]
  by_cases ha : a = const_lvalue
  · subst ha
    rw [if_pos rfl]
    dsimp only
    rw [transfer_of_const rfl]
    rfl
  · rw [if_neg ha]
    dsimp only
    by_cases hconst : a.const
    · -- a const rvalue: `std::move` does not drop the const, so this is a copy
      have hcopy : (forwarding_ref a).name.move.const := hconst
      rw [transfer_of_const hcopy, if_pos hconst]
    · have hmove : ¬ (forwarding_ref a).name.const := hconst
      rw [transfer_of_move hmove, if_neg hconst]

/-- And so has the value a new tag points to. -/
theorem CBORTag.construct_eq (n : CBOR_U64) (a : Category) (v : TagArgument) :
    CBORTag.construct n a v =
      some (.tag n (some v.content), if a.const then v else Movable.moved_from v) := by
  unfold CBORTag.construct
  rw [CBORTag.resolve_constructors]
  rcases v with v | x
  · obtain ⟨_ | _, _ | _⟩ := a <;> rfl
  · have hconst : (forwarding_ref a).name.move.const = a.const := rfl
    dsimp only [make_shared]
    rw [CBORValue.construct_eq, hconst, Option.map_some, Option.map_some]
    by_cases h : a.const
    · rw [if_pos h, if_pos h]
      rfl
    · rw [if_neg h, if_neg h]
      rfl

/-! ## What the caller sees -/

/-- There is nothing to move out of the object: it is a number, or empty. -/
def Alternative.Hollow : Alternative → Prop
  | .bstr storage | .tstr storage => storage = []
  | .array elements => elements = []
  | .map entries => entries = []
  | .tag _ storage => storage = none
  | _ => True

def TagArgument.Hollow : TagArgument → Prop
  | .value v => v.alternative.Hollow
  | .object x => x.Hollow

theorem Alternative.moved_from_eq_iff (x : Alternative) :
    Movable.moved_from x = x ↔ x.Hollow := by
  rcases x with _ | _ | storage | storage | elements | entries | ⟨number, storage⟩ | _ | _
  case bstr | tstr | array | map | tag =>
    simp only [Movable.moved_from, Alternative.Hollow, Alternative.bstr.injEq,
      Alternative.tstr.injEq, Alternative.array.injEq, Alternative.map.injEq,
      Alternative.tag.injEq, true_and]
    exact eq_comm
  all_goals exact iff_of_true rfl trivial

theorem TagArgument.moved_from_eq_iff (v : TagArgument) :
    Movable.moved_from v = v ↔ v.Hollow := by
  rcases v with v | x
  · rw [TagArgument.Hollow, ← v.alternative.moved_from_eq_iff]
    constructor
    · intro h
      have hvalue : (Movable.moved_from v.alternative).value = v := TagArgument.value.inj h
      have hobject := congrArg CBORValue.alternative hvalue
      rwa [Alternative.value_alternative] at hobject
    · intro h
      have hvalue : (Movable.moved_from v.alternative).value = v := by
        rw [h, CBORValue.alternative_value]
      exact congrArg TagArgument.value hvalue
  · rw [TagArgument.Hollow, ← x.moved_from_eq_iff]
    exact ⟨TagArgument.object.inj, congrArg TagArgument.object⟩

/-- A const object is copied: the new one has its content and it keeps it. -/
theorem construct_const_lvalue (n : CBOR_U64) (x : Alternative) (v : TagArgument) :
    CBORValue.construct const_lvalue x = some (x.value, x) ∧
      CBORTag.construct n const_lvalue v = some (.tag n (some v.content), v) :=
  ⟨CBORValue.construct_eq const_lvalue x, CBORTag.construct_eq n const_lvalue v⟩

/-- A caller who keeps the object keeps its content only if there is none. For every
object of a type a `CBORValue` can hold, `CBORValue(x)` with a non-const lvalue `x` has
the content of `x`, and leaves `x` as it is if and only if there is nothing to move out
of it; and so for `CBORTag(n, v)`, where `v` may be a `CBORValue` itself. -/
theorem construct_lvalue_iff (x : Alternative) (n : CBOR_U64) (v : TagArgument) :
    ((∃ x', CBORValue.construct lvalue x = some (x.value, x')) ∧
      (CBORValue.construct lvalue x = some (x.value, x) ↔ x.Hollow)) ∧
    (∃ v', CBORTag.construct n lvalue v = some (.tag n (some v.content), v')) ∧
    (CBORTag.construct n lvalue v = some (.tag n (some v.content), v) ↔ v.Hollow) := by
  have hlvalue : ¬ lvalue.const := by decide
  have hvalue := CBORValue.construct_eq lvalue x
  have htag := CBORTag.construct_eq n lvalue v
  rw [if_neg hlvalue] at hvalue htag
  refine ⟨⟨⟨_, hvalue⟩, ?_⟩, ⟨_, htag⟩, ?_⟩
  · rw [hvalue, Option.some.injEq, Prod.mk.injEq, ← x.moved_from_eq_iff]
    exact and_iff_right rfl
  · rw [htag, Option.some.injEq, Prod.mk.injEq, ← v.moved_from_eq_iff]
    exact and_iff_right rfl

/-- A byte string of one byte is empty after a value was made of it. -/
theorem construct_empties_bstr :
    ¬ ∀ storage : List UInt8,
      CBORValue.construct lvalue (.bstr storage) = some (.bstr storage, .bstr storage) := by
  intro h
  have hkept := congrArg Prod.snd (Option.some.inj (h [0x01]))
  have hmoved : (Alternative.bstr []) = .bstr [0x01] := hkept
  exact absurd (Alternative.bstr.inj hmoved) (by decide)

end GlviCbor
