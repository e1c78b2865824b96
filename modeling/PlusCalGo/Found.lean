import PlusCalGo.Text.Quoted

/-!
# Found values

How readers of algorithms and configurations speak of a value that is not the wanted one.
-/

namespace PlusCalGo

/-- What stood in a text in place of the wanted value. -/
inductive Found where
  | null
  | bool (value : Bool)
  | integer (value : Int)
  /-- An integer that takes more than 64 bits. -/
  | wideInteger (value : Int)
  | float (decimal : String)
  | string (value : String)
  | sequence
  | map
  | unitVariant
deriving DecidableEq, Inhabited

def Found.text : Found → String
  | null => "null"
  | bool value => "boolean `" ++ (if value then "true" else "false") ++ "`"
  | integer value => "integer `" ++ toString value ++ "`"
  | wideInteger value =>
    "integer `" ++ toString value ++
      (if value < Int.ofNat (Nat.pow 2 127) then "` as i128" else "` as u128")
  | float decimal => "floating point `" ++ decimal ++ "`"
  | string value => "string " ++ Text.quoted value
  | sequence => "sequence"
  | map => "map"
  | unitVariant => "unit variant"

/-- Names a reader would have taken: two are joined by "or", more are listed. -/
def oneOf : List String → String
  | [name] => "`" ++ name ++ "`"
  | [first, second] => "`" ++ first ++ "` or `" ++ second ++ "`"
  | names => "one of " ++ ", ".intercalate (names.map fun name => "`" ++ name ++ "`")

end PlusCalGo
