/-
**References and overloads**: which of several functions with a reference parameter
a call takes, and what initialising an object does to the one it is made from.

An argument is an lvalue or an rvalue, const or not. A parameter is `T&`, `T const&`,
`T&&` or `T const&&`; the forwarding reference `T&&` of a template becomes the one
that fits the argument. Of the candidates an argument can bind to, the best is taken:
one that needs no conversion before one that does, then an rvalue reference before an
lvalue reference for an rvalue, then the less const one.

`transfer` is the other half. An object of the same type is made by moving if the
expression is an rvalue and not const, by copying otherwise. Only a move changes the
source, to what the type's move constructor leaves of it.
-/
import Mathlib.Data.List.Basic

set_option autoImplicit false

namespace Overload

/-! ## Arguments and parameters -/

/-- An argument expression of some type. -/
structure Category where
  const : Bool
  rvalue : Bool
  deriving DecidableEq, Repr

def lvalue : Category := ⟨false, false⟩
def const_lvalue : Category := ⟨true, false⟩

/-- `std::move`. -/
def Category.move (a : Category) : Category := { a with rvalue := true }

/-- A reference parameter. -/
structure Param where
  const : Bool
  rref : Bool
  deriving DecidableEq, Repr

def const_ref : Param := ⟨true, false⟩
def rvalue_ref : Param := ⟨false, true⟩

/-- `T&&` with `T` deduced from the argument. -/
def forwarding_ref (a : Category) : Param := ⟨a.const, a.rvalue⟩

/-- The parameter by its name, inside the function: an lvalue, whatever its type. -/
def Param.name (p : Param) : Category := ⟨p.const, false⟩

/-- An rvalue reference takes rvalues, a const lvalue reference takes everything, and
no reference drops a const. -/
def Param.binds (p : Param) (a : Category) : Bool :=
  (!a.const || p.const) && (if p.rref then a.rvalue else p.const || !a.rvalue)

/-! ## Overload resolution -/

/-- A function of an overload set. `converts` says that the argument is of another
type, and that the parameter is bound to a temporary made from it. -/
structure Candidate (κ : Type*) where
  function : κ
  param : Param
  converts : Bool

variable {κ : Type*}

def Candidate.viable (a : Category) (c : Candidate κ) : Bool :=
  if c.converts then c.param.binds ⟨false, true⟩ else c.param.binds a

/-- The argument goes better to `c` than to `d`. -/
def Candidate.better (a : Category) (c d : Candidate κ) : Bool :=
  if c.converts then false
  else d.converts || (a.rvalue && c.param.rref && !d.param.rref) ||
    (!c.param.const && d.param.const)

/-- The function called. The candidates stand in the order that breaks ties: no
templates before templates, the more special template first. -/
def resolve (a : Category) (candidates : List (Candidate κ)) : Option κ :=
  let viable := candidates.filter (Candidate.viable a)
  (viable.find? fun c => viable.all fun d => !d.better a c).map Candidate.function

/-! ## Copies and moves -/

/-- Types with a move constructor: what it leaves of the source. -/
class Movable (α : Type*) where
  moved_from : α → α

variable {α : Type*} [Movable α]

/-- Initialises an object from an expression of its own type: the new object, and the
one the expression refers to afterwards. -/
def transfer (a : Category) (x : α) : α × α :=
  if a.rvalue && !a.const then (x, Movable.moved_from x) else (x, x)

/-- A copy leaves the source alone. -/
theorem transfer_of_const {a : Category} (h : a.const) (x : α) : transfer a x = (x, x) := by
  unfold transfer
  rw [h, Bool.not_true, Bool.and_false, if_neg Bool.false_ne_true]

theorem transfer_of_move {a : Category} (h : ¬ a.const) (x : α) :
    transfer a.move x = (x, Movable.moved_from x) := by
  unfold transfer
  rw [Bool.not_eq_true] at h
  rw [Category.move, h, Bool.not_false, Bool.and_true, if_pos rfl]

end Overload
