/-!
# Lock groups

The number of a lock. Labels whose steps could race are put into one group and share its lock.
-/

namespace PlusCalGo

structure LockGroup where
  index : Nat
deriving DecidableEq, Inhabited

def LockGroup.text (group : LockGroup) : String := Nat.repr group.index

end PlusCalGo
