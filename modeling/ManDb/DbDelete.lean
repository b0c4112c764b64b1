import ManDb.Dbm
import ManDb.Keys
import ManDb.Mandata

namespace ManDb

def noEntry : Nat := 1

/-- Delete an entry for a page. A singular reference is deleted as it is; in an
index the pair asked for is looked up, its multi key deleted, and the index
rewritten without it or deleted with its last pair. -/
def dbdelete (loc : Locale) (db : Store) (name : Bytes) (info : Mandata) : Except Fatal (Nat × Store) :=
  let key := nameToKey loc name
  match db.fetch key with
  | none => .ok (noEntry, db)
  | some cont =>
    if !isIndex cont then .ok (0, db.delete key)
    else
      let refs := listExtensions cont.tail
      match refs.idxOf? ⟨name, info.ext⟩ with
      | none => .ok (noEntry, db)
      | some thisIndex =>
        let multiKey := makeMultiKey name info.ext
        if (db.fetch multiKey).isNone then .error (.noMultiKey multiKey)
        else
          let db := db.delete multiKey
          let refs := refs.eraseIdx thisIndex
          if refs = [] then .ok (0, db.delete key)
          else .ok (0, db.replace key (makeExtensionsReference refs))

end ManDb
