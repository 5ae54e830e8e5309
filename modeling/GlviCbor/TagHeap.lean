/-
Tags in memory: what the `std::shared_ptr` in a `CBORTag` makes of copies.

`CBORTag` keeps its value behind a shared pointer. Copies of a tag, and of a value that
holds one, point to the same cell, so the tree of `CBORValue` is not what is in memory.
`Memory` is: objects that hold an address, and the cells. Everything before this module
speaks of trees, and `memory_represents` says when that is right: named objects can be
made, copied, moved and taken apart in any order, and what is in memory reads as the trees
of the by-value model, as long as callers only copy out of the reference that
`CBORTag::value` returns. Who assigns through it or moves out of it changes the cell for
all copies of the tag, be it by `CBORTag(n, t.value())`. `GlviCbor.TagCell` is about that.

Cells that nobody points to any more are freed by the source and stay in the model;
nobody can see the difference. Elements of arrays and maps are private and have no
accessor, so they are trees here.
-/
import GlviCbor.Lib.Sharing
import GlviCbor.Construct
import GlviCbor.Accessors
import Mathlib.Data.Option.Basic
import Mathlib.Logic.Function.Basic

set_option autoImplicit false

namespace GlviCbor

open Overload Sharing

/-! ## Objects and cells -/

/-- An object in memory: a `CBORTag`, or a value of another type. -/
inductive Object where
  | plain (content : CBORValue) (no_tag : content.is_tag = false)
  | tag (number : CBOR_U64) (storage : Option ℕ)

/-- The address an object holds. -/
def Object.next : Object → Option ℕ
  | .plain _ _ => none
  | .tag _ storage => storage

/-- The value of an object, from that of the cell it points to. -/
def Object.rebuild : Object → Option CBORValue → CBORValue
  | .plain content _, _ => content
  | .tag number _, storage => .tag number storage

theorem is_tag_moved_from (v : CBORValue) :
    (Movable.moved_from v : CBORValue).is_tag = v.is_tag := by
  rcases v <;> rfl

/-- A moved-from `std::shared_ptr` is null. -/
instance : Movable Object where
  moved_from
    | .plain content no_tag => .plain (Movable.moved_from content)
      ((is_tag_moved_from content).trans no_tag)
    | .tag number _ => .tag number none

/-- `CBOR_Undefined`, which a default-constructed value holds as well. -/
def Object.undefined : Object := .plain CBOR_Undefined.value rfl

/-- What an object reads as, with its pointers followed through the cells. -/
abbrev Object.Reads (object : Object) (cells : List Object) (v : CBORValue) : Prop :=
  Sharing.Reads Object.next Object.rebuild cells object v

/-- The pointers come to an end. -/
abbrev Object.Readable (object : Object) (cells : List Object) : Prop :=
  Sharing.Readable Object.next Object.rebuild cells object

/-- An object leads to a cell. -/
abbrev Object.Reaches (object : Object) (cells : List Object) (a : ℕ) : Prop :=
  Sharing.Reaches Object.next cells object a

/-- Objects by their names, and the cells `std::make_shared` has made. -/
structure Memory (V : Type*) where
  objects : V → Object
  cells : List Object

/-- What a named object reads as. -/
abbrev Memory.Reads {V : Type*} (m : Memory V) (x : V) (v : CBORValue) : Prop :=
  Sharing.Reads Object.next Object.rebuild m.cells (m.objects x) v

/-- A named object leads to a cell. -/
abbrev Memory.Reaches {V : Type*} (m : Memory V) (x : V) (a : ℕ) : Prop :=
  Sharing.Reaches Object.next m.cells (m.objects x) a

/-! ## Operations -/

/-- What a caller does with named objects, `CBORValue`s and `CBORTag`s alike. The cell
behind a tag is no named object; `value` makes a copy of what is in it. -/
inductive Op (V : Type*) where
  /-- `x = CBORUint{..}` and so on, for a content without tags. -/
  | init (x : V) (content : CBORValue)
  /-- `x = y`, `x = std::move(y)`, of one type. -/
  | assign (a : Category) (x y : V)
  /-- `x = CBORValue(y)`, for `y` of one of the types a value can hold. -/
  | construct (a : Category) (x y : V)
  /-- `x = CBORTag(n, y)`. -/
  | make_tag (x : V) (n : CBOR_U64) (a : Category) (y : V)
  /-- `if (auto tag = y.as_tag()) x = *tag`. -/
  | as_tag (x y : V)
  /-- `y.move_tag(x)`. -/
  | move_tag (y x : V)
  /-- `x = y.value()`. -/
  | value (x y : V)

section Run

variable {V : Type*} [DecidableEq V]

/-- Overwrites an object. -/
def Memory.set (m : Memory V) (x : V) (object : Object) : Memory V :=
  { m with objects := Function.update m.objects x object }

/-- `std::make_shared`: a cell of its own for an object, behind those there are. -/
def Memory.make_shared (m : Memory V) (object : Object) : Memory V :=
  { m with cells := m.cells ++ [object] }

/-- One operation in memory; `none` where it is not defined, and for an object that is
assigned to itself or what is behind it, which is left out. The constructors take
their argument by `std::move`, which a const one survives; see `CBORValue.construct_eq`
and `CBORTag.construct_eq`. -/
def Memory.step (m : Memory V) : Op V → Option (Memory V)
  | .init x content =>
    if no_tag : content.is_tag = false then some (m.set x (.plain content no_tag)) else none
  | .assign a x y =>
    if x = y then none
    else
      let (object, left) := transfer a (m.objects y)
      some ((m.set y left).set x object)
  | .construct a x y =>
    if x = y then none
    else
      let (object, left) := transfer a.move (m.objects y)
      some ((m.set y left).set x object)
  | .make_tag x n a y =>
    let (object, left) := transfer a.move (m.objects y)
    some (((m.make_shared object).set y left).set x (.tag n (some m.cells.length)))
  | .as_tag x y =>
    match m.objects y with
    | .tag number storage => some (m.set x (.tag number storage))
    | .plain _ _ => some m
  | .move_tag y x =>
    if x = y then none
    else
      match m.objects y with
      | .tag number storage => some ((m.set y .undefined).set x (.tag number storage))
      | .plain _ _ => some m
  | .value x y =>
    if x = y then none
    else
      match (m.objects y).next with
      | some a => (m.cells[a]?).map (m.set x)
      -- a null pointer, or not a tag
      | none => none

def Memory.run (m : Memory V) : List (Op V) → Option (Memory V)
  | [] => some m
  | op :: ops => (m.step op).bind fun m => m.run ops

/-- The same operation where every object is a tree of its own. -/
def values_step (values : V → CBORValue) : Op V → Option (V → CBORValue)
  | .init x content =>
    if content.is_tag = false then some (Function.update values x content) else none
  | .assign a x y =>
    if x = y then none
    else
      let (v, left) := transfer a (values y)
      some (Function.update (Function.update values y left) x v)
  | .construct a x y =>
    if x = y then none
    else (CBORValue.construct a (values y).alternative).map fun p =>
      Function.update (Function.update values y p.2.value) x p.1
  | .make_tag x n a y =>
    (CBORTag.construct n a (.value (values y))).map fun p =>
      Function.update (Function.update values y p.2.content) x p.1.value
  | .as_tag x y =>
    match (values y).as_tag with
    | some tag => some (Function.update values x (.tag tag.tag tag.value))
    | none => some values
  | .move_tag y x =>
    if x = y then none
    else
      match (values y).as_tag with
      | some tag => some (Function.update (Function.update values y CBOR_Undefined.value) x
          (.tag tag.tag tag.value))
      | none => some values
  | .value x y =>
    if x = y then none
    else ((values y).as_tag.bind CBORTag.value).map (Function.update values x)

def values_run (values : V → CBORValue) : List (Op V) → Option (V → CBORValue)
  | [] => some values
  | op :: ops => (values_step values op).bind fun values => values_run values ops

/-! ## What is in memory reads as trees -/

/-- Every object reads as its tree. -/
def Memory.Represents (m : Memory V) (values : V → CBORValue) : Prop :=
  ∀ x, m.Reads x (values x)

variable {m : Memory V} {values : V → CBORValue}

theorem reads_plain {cells : List Object} {content : CBORValue}
    (no_tag : content.is_tag = false) : (Object.plain content no_tag).Reads cells content :=
  Sharing.Reads.stop (c := Object.plain content no_tag) rfl

/-- A moved-from object reads as a moved-from tree. -/
theorem reads_moved_from {cells : List Object} {object : Object} {v : CBORValue}
    (h : object.Reads cells v) :
    (Movable.moved_from object).Reads cells (Movable.moved_from v) := by
  rcases object with ⟨content, no_tag⟩ | ⟨number, storage⟩
  · obtain rfl := (reads_of_none rfl).mp h
    exact reads_plain _
  · rcases h with _ | _
    · exact Sharing.Reads.stop (c := Object.tag number none) rfl
    · exact Sharing.Reads.stop (c := Object.tag number none) rfl

theorem reads_transfer {cells : List Object} {object : Object} {v : CBORValue} (a : Category)
    (h : object.Reads cells v) :
    (transfer a object).1.Reads cells (transfer a v).1 ∧
      (transfer a object).2.Reads cells (transfer a v).2 := by
  unfold transfer
  split_ifs
  · exact ⟨h, reads_moved_from h⟩
  · exact ⟨h, h⟩

theorem Memory.Represents.set (h : m.Represents values) (x : V) {object : Object} {v : CBORValue}
    (hv : object.Reads m.cells v) : (m.set x object).Represents (Function.update values x v) := by
  intro z
  by_cases hz : z = x
  · subst hz
    simp only [Memory.Reads, Memory.set, Function.update_self]
    exact hv
  · simp only [Memory.Reads, Memory.set, Function.update_of_ne hz]
    exact h z

omit [DecidableEq V] in
theorem Memory.Represents.make_shared (h : m.Represents values) (object : Object) :
    (m.make_shared object).Represents values :=
  fun z => (h z).append [object]

/-- What a moving constructor makes of its argument, const or not. -/
theorem transfer_move {α : Type*} [Movable α] (a : Category) (x : α) :
    transfer a.move x = (x, if a.const then x else Movable.moved_from x) := by
  by_cases h : a.const
  · rw [transfer_of_const (show a.move.const from h), if_pos h]
  · rw [transfer_of_move h, if_neg h]

/-- An object without a pointer to follow is its tree; a tag reads as a tag. -/
theorem reads_cases {cells : List Object} {object : Object} {v : CBORValue}
    (h : object.Reads cells v) :
    (∃ no_tag, object = .plain v no_tag) ∨
      ∃ number storage content, object = .tag number storage ∧ v = .tag number content ∧
        (storage = none → content = none) ∧
        ∀ a, storage = some a →
          ∃ cell u, cells[a]? = some cell ∧ content = some u ∧ cell.Reads cells u := by
  rcases object with ⟨content, no_tag⟩ | ⟨number, _ | a⟩
  · obtain rfl := (reads_of_none rfl).mp h
    exact .inl ⟨no_tag, rfl⟩
  · obtain rfl := (reads_of_none rfl).mp h
    exact .inr ⟨number, none, none, rfl, rfl, (fun _ => rfl), by rintro _ ⟨⟩⟩
  · have hnext : (Object.tag number (some a)).next = some a := rfl
    obtain ⟨cell, u, hcell, hu, rfl⟩ := (reads_of_some hnext).mp h
    refine .inr ⟨number, some a, some u, rfl, rfl, (by rintro ⟨⟩), ?_⟩
    rintro _ ⟨⟩
    exact ⟨cell, u, hcell, rfl, hu⟩

/-- `CBORValue(x)` is a move as far as const permits. -/
theorem construct_eq_transfer (a : Category) (v : CBORValue) :
    CBORValue.construct a v.alternative =
      some (v, (transfer a.move v).2.alternative) := by
  rw [CBORValue.construct_eq, CBORValue.alternative_value, transfer_move]
  dsimp only
  split_ifs
  · rfl
  · exact congrArg (fun x => some (v, x)) (Alternative.value_alternative _).symm

/-- And so is `CBORTag(n, v)`. -/
theorem construct_tag_eq_transfer (n : CBOR_U64) (a : Category) (v : CBORValue) :
    CBORTag.construct n a (.value v) =
      some (.tag n (some v), .value (transfer a.move v).2) := by
  rw [CBORTag.construct_eq, transfer_move]
  dsimp only
  split_ifs <;> rfl

theorem as_tag_of_not_is_tag {v : CBORValue} (h : v.is_tag = false) : v.as_tag = none := by
  rcases v <;> first | rfl | cases h

/-! ### Operation by operation -/

theorem represents_assign (h : m.Represents values) (a : Category) (x y : V) :
    ((m.set y (transfer a (m.objects y)).2).set x (transfer a (m.objects y)).1).Represents
      (Function.update (Function.update values y (transfer a (values y)).2) x
        (transfer a (values y)).1) := by
  obtain ⟨hnew, hleft⟩ := reads_transfer a (h y)
  exact (h.set y hleft).set x hnew

theorem represents_make_tag (h : m.Represents values) (n : CBOR_U64) (a : Category) (x y : V) :
    (((m.make_shared (transfer a (m.objects y)).1).set y (transfer a (m.objects y)).2).set x
        (.tag n (some m.cells.length))).Represents
      (Function.update (Function.update values y (transfer a (values y)).2) x
        (.tag n (some (transfer a (values y)).1))) := by
  obtain ⟨hnew, hleft⟩ := reads_transfer a (h y)
  refine ((h.make_shared _).set y (hleft.append _)).set x ?_
  exact reads_fresh (c := Object.tag n (some m.cells.length)) rfl hnew

theorem represents_as_tag (h : m.Represents values) (x y : V) :
    Option.Rel Memory.Represents (m.step (.as_tag x y)) (values_step values (.as_tag x y)) := by
  unfold Memory.step values_step
  dsimp only
  have hy := h y
  rcases reads_cases hy with ⟨no_tag, hobject⟩ | ⟨number, storage, content, hobject, hv, -, -⟩
  · rw [hobject, as_tag_of_not_is_tag no_tag]
    exact .some h
  · rw [hobject, hv]
    rw [Memory.Reads, hobject, hv] at hy
    exact .some (h.set x hy)

theorem represents_move_tag (h : m.Represents values) (x y : V) :
    Option.Rel Memory.Represents (m.step (.move_tag y x)) (values_step values (.move_tag y x)) := by
  unfold Memory.step values_step
  dsimp only
  have hy := h y
  split_ifs
  · exact .none
  · rcases reads_cases hy with ⟨no_tag, hobject⟩ | ⟨number, storage, content, hobject, hv, -, -⟩
    · rw [hobject, as_tag_of_not_is_tag no_tag]
      exact .some h
    · rw [hobject, hv]
      rw [Memory.Reads, hobject, hv] at hy
      exact .some ((h.set y (reads_plain rfl)).set x hy)

theorem represents_value (h : m.Represents values) (x y : V) :
    Option.Rel Memory.Represents (m.step (.value x y)) (values_step values (.value x y)) := by
  unfold Memory.step values_step
  dsimp only
  have hy := h y
  split_ifs
  · exact .none
  · rcases reads_cases hy with ⟨no_tag, hobject⟩ |
      ⟨number, _ | a, content, hobject, hv, hnull, hcell⟩
    · rw [hobject, as_tag_of_not_is_tag no_tag]
      exact .none
    · obtain rfl := hnull rfl
      rw [hobject, hv]
      exact .none
    · obtain ⟨cell, u, hget, rfl, hu⟩ := hcell a rfl
      rw [hobject, hv]
      simp only [Object.next, hget]
      exact .some (h.set x hu)

/-- One operation: both are defined or neither is, and what was represented still is. -/
theorem Memory.Represents.step (h : m.Represents values) (op : Op V) :
    Option.Rel Memory.Represents (m.step op) (values_step values op) := by
  rcases op with ⟨x, content⟩ | ⟨a, x, y⟩ | ⟨a, x, y⟩ | ⟨x, n, a, y⟩ | ⟨x, y⟩ | ⟨y, x⟩ | ⟨x, y⟩
  case init =>
    unfold Memory.step values_step
    dsimp only
    split_ifs with no_tag
    · exact .some (h.set x (reads_plain no_tag))
    · exact .none
  case assign =>
    unfold Memory.step values_step
    dsimp only
    split_ifs
    · exact .none
    · exact .some (represents_assign h a x y)
  case construct =>
    unfold Memory.step values_step
    dsimp only
    split_ifs
    · exact .none
    · have hrep := represents_assign h a.move x y
      rw [transfer_move a (values y)] at hrep
      rw [construct_eq_transfer, Option.map_some, CBORValue.alternative_value,
        transfer_move a (values y)]
      exact .some hrep
  case make_tag =>
    have hrep := represents_make_tag h n a.move x y
    rw [transfer_move a (values y)] at hrep
    unfold Memory.step values_step
    dsimp only
    rw [construct_tag_eq_transfer, Option.map_some, transfer_move a (values y)]
    exact .some hrep
  case as_tag => exact represents_as_tag h x y
  case move_tag => exact represents_move_tag h x y
  case value => exact represents_value h x y

theorem Memory.Represents.run (h : m.Represents values) (ops : List (Op V)) :
    Option.Rel Memory.Represents (m.run ops) (values_run values ops) := by
  induction ops generalizing m values with
  | nil => exact .some h
  | cons op ops ih =>
    have hstep := h.step op
    unfold Memory.run values_run
    generalize m.step op = after, values_step values op = tree at hstep ⊢
    rcases hstep with hrep | _
    · exact ih hrep
    · exact .none

/-- Every object default-constructed, and no cell made. -/
def Memory.initial (V : Type*) : Memory V := ⟨fun _ => .undefined, []⟩

end Run

/-- Sharing is not seen by copying out. In any order of making values and tags from named
objects, const or not, lvalues or rvalues, of copying and moving these, of taking tags
out of values, and of copying what is behind a tag, what is in memory reads, object by
object, as the trees of the by-value model; and an operation is undefined in memory
exactly where it is there. -/
theorem memory_represents {V : Type*} [DecidableEq V] (ops : List (Op V)) :
    Option.Rel Memory.Represents ((Memory.initial V).run ops)
      (values_run (fun _ => CBOR_Undefined.value) ops) := by
  have hinitial : (Memory.initial V).Represents fun _ => CBOR_Undefined.value :=
    fun _ => reads_plain rfl
  exact hinitial.run ops

end GlviCbor
