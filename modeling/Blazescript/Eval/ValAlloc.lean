import Blazescript.Arena.FreeList
import Blazescript.Eval.Machine
import Blazescript.Tracing.Recorder

/-!
# Runs of `valalloc.c`

Sequences of calls of `val_alloc` and `val_alloc_free`, once with slots named by their indices and once with
pointers into a block of memory that may move.
-/

namespace Blaze

open Arena Tracing

namespace ValAllocTbl

/-- The slots of the table by number. -/
def freeList (tbl : ValAllocTbl) : FreeList := ⟨tbl.values.length, tbl.head⟩

/-- `val_alloc_free` on the table. What it frees with `free_inner` is not in the table, unless the value is a user
function. -/
def release (tbl : ValAllocTbl) (index : Nat) : ValAllocTbl :=
  match tbl.values[index]? with
  | some v => (tbl.pushFree index).store index ⟨.null, true, v.selfPtr⟩
  | none => tbl

/-- `val_alloc_tbl_resize` reallocates the block. -/
def Grows (tbl : ValAllocTbl) : Prop := tbl.head = [] ∧ ¬ tbl.values.length < tbl.capacity - 1

instance (tbl : ValAllocTbl) : Decidable tbl.Grows := inferInstanceAs (Decidable (_ ∧ _))

/-- The block is still the one that `val_alloc_tbl_init` allocated, and pointers into it are good. -/
def Unmoved (tbl : ValAllocTbl) : Prop := tbl.capacity = init.capacity

instance (tbl : ValAllocTbl) : Decidable tbl.Unmoved := inferInstanceAs (Decidable (_ = _))

end ValAllocTbl

/-! ## Indices -/

/-- The table, and the indices of the slots that are allocated. -/
structure TblUse where
  tbl : ValAllocTbl
  used : List Nat

inductive TblCall
  | alloc
  /-- the owner of a slot writes its value -/
  | write (index : Nat) (value : Val)
  | free (index : Nat)

/-- A call, or a write of the owner of a slot in between. A slot is freed that is allocated and holds no user
function. -/
inductive TblUse.Calls (isUser : Nat → Prop) : TblUse → TblCall → TblUse → Prop
  | alloc (s : TblUse) : Calls isUser s .alloc ⟨s.tbl.alloc.2, s.tbl.alloc.1 :: s.used⟩
  | write {s : TblUse} {index : Nat} (value : Val) (h : index ∈ s.used) :
      Calls isUser s (.write index value) ⟨s.tbl.store index value, s.used⟩
  | free {s : TblUse} {index : Nat} {v : Val} (h : index ∈ s.used) (hv : s.tbl.values[index]? = some v)
      (hfn : ∀ f, v.data = .function f → ¬ isUser f) :
      Calls isUser s (.free index) ⟨s.tbl.release index, s.used.erase index⟩

/-- The free list consists of the indices that are not allocated, without repetition. -/
structure TblUse.Exact (s : TblUse) : Prop where
  nodup : s.tbl.head.Nodup
  free : ∀ index, index ∈ s.tbl.head ↔ index < s.tbl.values.length ∧ index ∉ s.used

/-- A call hands out a slot that is not in use, and leaves the slots alone that it is not about. -/
structure Tidy (step : Step TblUse TblCall) : Prop where
  fresh : step.event = .alloc → ∃ index, step.post.used = index :: step.pre.used ∧ index ∉ step.pre.used ∧
    index < step.post.tbl.capacity
  others : ∀ index ∈ step.pre.used, (∀ value, step.event ≠ .write index value) → step.event ≠ .free index →
    step.post.tbl.values[index]? = step.pre.tbl.values[index]?

/-! ## Pointers -/

/-- The table in a block of memory. Addresses count in values. -/
structure AddrTbl where
  base : Nat
  tbl : ValAllocTbl

/-- `val_alloc`, where `xrealloc` would return the address `moved`. -/
def AddrTbl.alloc (a : AddrTbl) (moved : Nat) : Nat × AddrTbl :=
  let base := if a.tbl.Grows then moved else a.base
  (base + a.tbl.alloc.1, ⟨base, a.tbl.alloc.2⟩)

/-- `val_alloc_free`, which computes the index from the pointer. Outside of the block it writes to memory that is
not the table's. -/
def AddrTbl.free (a : AddrTbl) (ptr : Nat) : Option AddrTbl :=
  if a.base ≤ ptr ∧ ptr < a.base + a.tbl.values.length then some ⟨a.base, a.tbl.release (ptr - a.base)⟩ else none

/-- A pointer that has been returned, with the slot that it was given for. -/
structure Handle where
  ptr : Nat
  index : Nat
  deriving DecidableEq

/-- The table, and the pointers that have not been freed. -/
structure PtrUse where
  addr : AddrTbl
  handles : List Handle

inductive PtrCall
  | alloc (moved : Nat)
  | free (handle : Handle)

inductive PtrUse.Calls : PtrUse → PtrCall → PtrUse → Prop
  | alloc (s : PtrUse) (moved : Nat) :
      Calls s (.alloc moved) ⟨(s.addr.alloc moved).2, ⟨(s.addr.alloc moved).1, s.addr.tbl.alloc.1⟩ :: s.handles⟩
  | free {s : PtrUse} {handle : Handle} {addr : AddrTbl} (h : handle ∈ s.handles)
      (hfree : s.addr.free handle.ptr = some addr) : Calls s (.free handle) ⟨addr, s.handles.erase handle⟩

/-- Every pointer designates the slot it was given for. -/
def PtrUse.Designates (s : PtrUse) : Prop := ∀ handle ∈ s.handles, handle.ptr = s.addr.base + handle.index

/-- After the call the pointers designate their slots; when one is freed its slot comes on the free list. -/
structure Survives (step : Step PtrUse PtrCall) : Prop where
  designates : step.post.Designates
  frees : ∀ handle, step.event = .free handle →
    step.post.addr.tbl.head = handle.index :: step.pre.addr.tbl.head

/-- The table grows and its block moves. -/
def Moves (step : Step PtrUse PtrCall) : Prop :=
  ∃ moved, step.event = .alloc moved ∧ step.pre.addr.tbl.Grows ∧ moved ≠ step.pre.addr.base

end Blaze
