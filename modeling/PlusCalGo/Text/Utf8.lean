/-!
# Lengths in bytes

Places in a text are counted in the bytes of UTF-8.
-/

namespace PlusCalGo.Text

/-- The number of bytes the characters take. -/
def byteLength (chars : List Char) : Nat := chars.foldl (fun n c => n + c.utf8Size) 0

end PlusCalGo.Text
