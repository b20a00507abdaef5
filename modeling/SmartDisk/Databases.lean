import Mathlib.Data.Rat.Defs

/-!
# The database behind `s3dexp/db`

What a column makes of a value, when two values are equal and which texts are like a
pattern is up to the server, its SQL mode and its collation. `Database` has the answers
as functions; what can be relied on stands in `Lawful`. NULL is not a value.

`docker-compose.yml` starts a MySQL server. `mysql` is one that compares ASCII texts as
that server does by default: it ignores case.
-/
namespace SmartDisk.Databases

/-- The column types in `s3dexp/db/models.py`; each `Float` there is `Float(53)`. -/
inductive ColumnType where
  | String (n : ℕ) | Integer | Float
  deriving DecidableEq, Repr

inductive Value where
  | text (s : List Char)
  | int (n : ℤ)
  | float (x : ℚ)
  deriving DecidableEq

/-- A value of the column's own type that is not too long or too large for it. -/
def ColumnType.fits : ColumnType → Value → Bool
  | .String n, .text s => s.length ≤ n
  | .Integer, .int n => -2147483648 ≤ n && n ≤ 2147483647
  | .Float, .float _ => true
  | _, _ => false

/-- `store` is `none` where the server reports an error. -/
structure Database where
  store : ColumnType → Value → Option Value
  equal : Value → Value → Bool
  like : List Char → List Char → Bool

/-- What fits is stored as it is, and found again. -/
structure Database.Lawful (db : Database) : Prop where
  keeps : ∀ t v, t.fits v = true → db.store t v = some v
  refl : ∀ v, db.equal v v = true

/-! ### MySQL -/

/-- What a pattern of `LIKE` consists of. -/
inductive Wildcard where
  | any | one | char (c : Char)

/-- A backslash escapes the character behind it. -/
def wildcards : List Char → List Wildcard
  | [] => []
  | '\\' :: c :: pattern => .char c :: wildcards pattern
  | '%' :: pattern => .any :: wildcards pattern
  | '_' :: pattern => .one :: wildcards pattern
  | c :: pattern => .char c :: wildcards pattern

def agrees : List Wildcard → List Char → Bool
  | [], text => text.isEmpty
  | .any :: pattern, text => text.tails.any (agrees pattern)
  | .one :: pattern, _ :: text => agrees pattern text
  | .char c :: pattern, d :: text => c.toLower = d.toLower && agrees pattern text
  | _ :: _, [] => false

/-- A server in strict mode, with a collation that ignores case. -/
def mysql : Database where
  store t v := if t.fits v then some v else none
  equal v w :=
    match v, w with
    | .text s, .text t => s.map Char.toLower = t.map Char.toLower
    | v, w => v = w
  like text pattern := agrees (wildcards pattern) text

theorem mysql_lawful : mysql.Lawful where
  keeps _ _ h := if_pos h
  refl v := by cases v <;> simp [mysql]

example : mysql.like "/d/B.JPG".toList "%.jpg".toList = true := by decide +kernel

end SmartDisk.Databases
