import InMemoryDb.Storage.Db

/-!
# Snapshot files

Format: `[magic:u32][lsn:u64][len:u64]` followed by
`[k-len:u32][key][v-len:u32][val]` entries.  The loader trusts the announced
number of entries and stops early only between entries.
-/

namespace InMemoryDb.Snapshot

open LittleEndian Wire

/-- `u32::from_le_bytes(*b"SNAP")`. -/
def snapshotMagic : ℕ := leNat [0x53, 0x4e, 0x41, 0x50]

/-- The entry loop of `load`, on the bytes behind its read pointer. -/
def loadEntries : ℕ → Bytes → Db → Except Panic Db
  | 0, _, db => .ok db
  | count + 1, rest, db =>
      if rest.length < 4 then .ok db
      else do
        let keyLen ← rdU32 (← slice rest 0 4)
        let key ← slice rest 4 (4 + keyLen)
        let valLen ← rdU32 (← slice rest (4 + keyLen) (8 + keyLen))
        let val ← slice rest (8 + keyLen) (8 + keyLen + valLen)
        loadEntries count (rest.drop (8 + keyLen + valLen)) (db.insertRaw key val)

/-- `snapshot::load`: the LSN of the snapshot, and the database it leaves. -/
def load (bytes : Bytes) (db : Db) : Except Panic (Option ℕ × Db) := do
  if bytes.length < 20 then return (none, db)
  else if (← rdU32 (← slice bytes 0 4)) ≠ snapshotMagic then return (none, db)
  else
    let lsn ← rdU64 (← slice bytes 4 12)
    let dbLen ← rdU64 (← slice bytes 12 20)
    let db ← loadEntries dbLen (bytes.drop 20) db
    return (some lsn, db)

end InMemoryDb.Snapshot
