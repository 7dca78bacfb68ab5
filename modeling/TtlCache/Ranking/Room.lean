import TtlCache.Fault

/-!
# Room for keys

A ranking sets its storage aside when it is made, for as many keys as it means to keep.  There is a
largest block of storage, and asking for a larger one is a fault.  Whether a block that is asked for
is also to be had is not told here.
-/

namespace TtlCache.Room

/-- The size of the largest block of storage in bytes. -/
def mostBytes : Nat := (1 <<< 63) - 1

def reserveList (cell count : Nat) : Except Panic Unit :=
  if mostBytes < cell * count then .error .listTooLarge else .ok ()

/-- The buckets of a table that is to hold `count` keys: a power of two, an eighth of it spare. -/
def bucketsFor (count : Nat) : Nat :=
  if count < 4 then
    4
  else if count < 8 then
    8
  else
    1 <<< ((count * 8 / 7 - 1).log2 + 1)

/-- A row and a byte of marks for every bucket; the marks are aligned and end in a group of 16. -/
def tableBytes (row buckets : Nat) : Nat := (row + 1) * buckets + 16 + 15

def reserveTable (row count : Nat) : Except Panic Unit :=
  if mostBytes < tableBytes row (bucketsFor count) then .error .tableTooLarge else .ok ()

end TtlCache.Room
