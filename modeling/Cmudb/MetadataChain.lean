import Mathlib.Data.List.Perm.Subperm
import Cmudb.Metadata

/-!
# The metadata chain

The metadata is written across a chain of pages that each name the next. The
chain is made longer before that: taking pages changes the allocation that is
written, but never makes it longer, so one round is enough.
-/

namespace Cmudb.Metadata

open Lib Sql

def allocatePageId (a : PageAllocation) : Except BpmError (Nat × PageAllocation) :=
  match a.freePageIds with
  | p :: free => .ok (p, { a with freePageIds := free })
  | [] =>
    if a.nextPageId ≤ maxPageId then .ok (a.nextPageId, { a with nextPageId := a.nextPageId + 1 })
    else .error (.pageIdsExhausted a.nextPageId)

/-- `frame` is the error of `get_free_frame`, if it finds no frame. -/
def newPage (frame : Option BpmError) (a : PageAllocation) : Except BpmError (Nat × PageAllocation) :=
  match frame with
  | some e => .error e
  | none => allocatePageId a

structure PageAllocation.Sound (a : PageAllocation) : Prop where
  below : ∀ p ∈ a.freePageIds, p < a.nextPageId
  nodup : a.freePageIds.Nodup

end Cmudb.Metadata
