import Blazescript.Syntax.Ast

/-!
# `datatype.h` and `valalloc.c`

Values, and the table that the values with a `self_ptr` are allocated in. Strings, vectors and
functions are objects of heaps, which a value names by identity; a pointer into the table is the
index of a slot.
-/

namespace Blaze

/-- The payload of `val_t` for each `val_type_t`. No value of type `VAL_OBJECT` is ever made. A
`long double` is always the quotient of two integers. -/
inductive ValData
  | integer (intval : Int)
  | float (num den : Int)
  | string (strval : Nat)
  | function (fnval : Nat)
  | null
  | boolean (boolval : Bool)
  | array (arrval : Nat)
  deriving DecidableEq, Repr

/-- The number of `val_type_t`. -/
def ValData.type : ValData → Nat
  | integer _ => 0
  | float _ _ => 1
  | string _ => 2
  | function _ => 3
  | null => 5
  | boolean _ => 6
  | array _ => 7

/-- `val_type_to_str`. -/
def ValData.typeToStr : ValData → String
  | integer _ => "INTEGER"
  | boolean _ => "BOOLEAN"
  | string _ => "STRING"
  | float _ _ => "FLOAT"
  | function _ => "FUNCTION"
  | null => "NULL"
  | array _ => "ARRAY"

/-- `val_t`. -/
structure Val where
  data : ValData
  nofree : Bool
  selfPtr : Option Nat
  deriving DecidableEq, Repr

/-- A value outside the table that may be freed, as `val_create` makes it. -/
def Val.ofData (data : ValData) : Val := ⟨data, false, none⟩

/-- The static `null_val`, to which `scope->null` and `blaze_null()` point. -/
def nullVal : Val := ⟨.null, true, none⟩

def trueVal : Val := ⟨.boolean true, true, none⟩

def falseVal : Val := ⟨.boolean false, true, none⟩

/-- The macro `BLAZE_NULL`. -/
def blazeNull : Val := .ofData .null

/-- `struct val_alloc_tbl`. The length of `values` is the field `size`, and `head` lists the indices
of the free nodes. -/
structure ValAllocTbl where
  values : List Val
  capacity : Nat
  head : List Nat
  deriving Repr

namespace ValAllocTbl

/-- `val_alloc_tbl_init`. -/
def init : ValAllocTbl := ⟨[], 4096, []⟩

/-- `val_alloc_tbl_resize`. -/
def resize (tbl : ValAllocTbl) : ValAllocTbl :=
  if tbl.values.length < tbl.capacity - 1 then tbl else { tbl with capacity := tbl.capacity * 2 }

/-- `val_alloc`: the index of the slot, and the table. -/
def alloc (tbl : ValAllocTbl) : Nat × ValAllocTbl :=
  match tbl.head with
  | index :: next => (index, { tbl with head := next })
  | [] =>
    let tbl := tbl.resize
    (tbl.values.length,
      { tbl with values := tbl.values ++ [⟨.integer 0, false, some tbl.values.length⟩] })

/-- Writes the value of a slot. -/
def store (tbl : ValAllocTbl) (index : Nat) (value : Val) : ValAllocTbl :=
  { tbl with values := tbl.values.set index value }

/-- `val_alloc_free`, up to the freeing of the value. -/
def pushFree (tbl : ValAllocTbl) (index : Nat) : ValAllocTbl :=
  { tbl with head := index :: tbl.head }

/-- `val_create_heap` and `val_init_heap`: a slot that holds a value which points to it. -/
def create (tbl : ValAllocTbl) (data : ValData) : Val × ValAllocTbl :=
  let (index, tbl) := tbl.alloc
  let value : Val := ⟨data, false, some index⟩
  (value, tbl.store index value)

end ValAllocTbl

end Blaze
