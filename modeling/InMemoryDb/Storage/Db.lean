import InMemoryDb.Wire.Body
import Mathlib.Data.Finmap

/-!
# The in-memory table

`Db` is a hash map from keys to reference-counted values.  At the level of
values it is a finite map; two databases are equal exactly when every key has
the same value in both.
-/

namespace InMemoryDb

/-- Key to value.  Equality is equality key by key (`Finmap.ext_lookup`). -/
abbrev Db := Finmap fun _ : Bytes => Bytes

namespace Db

def new : Db := ∅

def get (db : Db) (key : Bytes) : Option Bytes := db.lookup key

/-- `Db::put`.  The slot is overwritten in place when the lengths match and no
reader holds the value, and replaced otherwise; both leave `value` under
`key`. -/
def put (db : Db) (key value : Bytes) : Db :=
  match db.lookup key with
  | some _ => db.insert key value
  | none => db.insert key value

/-- `Db::insert_raw`, the insertion recovery uses. -/
def insertRaw (db : Db) (key value : Bytes) : Db := db.insert key value

theorem put_eq_insertRaw (db : Db) (key value : Bytes) :
    db.put key value = db.insertRaw key value := by
  unfold put insertRaw
  cases db.lookup key <;> rfl

end Db

end InMemoryDb
