import ManDb.Winner
import ManDb.Index.Layout
import ManDb.Index.Leftover

namespace ManDb

/-- The arguments of one call of `dbstore`. -/
structure Page where
  data : Mandata
  base : Bytes
  deriving DecidableEq

namespace Page

def ref (p : Page) : NameExt := ⟨p.base, p.data.ext⟩

def Proper (p : Page) : Prop := PageName p.base ∧ p.data.Clean

/-- Two pages of one key that are not the same page, tie in id, mtime and pointer
and have different compression extensions. -/
def ClashesWith (loc : Locale) (p q : Page) : Prop :=
  nameToKey loc p.base = nameToKey loc q.base ∧ p.ref ≠ q.ref ∧ (stored p.data).Ties (stored q.data) ∧
    dashIfUnset p.data.comp ≠ dashIfUnset q.data.comp

end Page

/-- `dbstore` on one page after the other, whatever each call returns. -/
def storeAll (loc : Locale) (db : Store) (ps : List Page) : Except Fatal Store :=
  ps.foldlM (fun db p => Prod.snd <$> dbstore loc db p.data p.base) db

/-- The records offered for one pair, in the order in which they come. -/
def recordsOf (ref : NameExt) (ps : List Page) : List Mandata :=
  (ps.filter (fun p => p.ref = ref)).map (fun p => stored p.data)

/-- Every order in which the pages are stored gives the same index. -/
def Reproducible (loc : Locale) (ps : List Page) : Prop :=
  ∃ db, ∀ qs : List Page, qs.Perm ps → storeAll loc ∅ qs = .ok db

/-- No two pages clash, and for no page there is an upset among its records. -/
def Peaceful (loc : Locale) (ps : List Page) : Prop :=
  (∀ p ∈ ps, ∀ q ∈ ps, ¬p.ClashesWith loc q) ∧ ∀ ref, ¬Upset (recordsOf ref ps)

/-- A finite set of proper pages in which the precedence tells records for the
same pair apart. -/
structure Distinct (ps : List Page) : Prop where
  proper : ∀ p ∈ ps, p.Proper
  nodup : ps.Nodup
  apart : ∀ p ∈ ps, ∀ q ∈ ps, p.ref = q.ref → (stored p.data).Ties (stored q.data) → p = q

variable {loc : Locale} {db db' : Store} {p q : Page} {ps qs : List Page} {ref : NameExt}

theorem storeAll_snoc (loc : Locale) (db : Store) (ps : List Page) (p : Page) :
    storeAll loc db (ps ++ [p]) =
      (storeAll loc db ps).bind fun after => Prod.snd <$> dbstore loc after p.data p.base := by
  unfold storeAll
  rw [List.foldlM_append]
  refine congrArg (Except.bind _) (funext fun after => ?_)
  simp only [List.foldlM_cons, List.foldlM_nil, bind_pure]

theorem mem_recordsOf {info : Mandata} : info ∈ recordsOf ref ps ↔ ∃ p ∈ ps, p.ref = ref ∧ stored p.data = info := by
  simp [recordsOf, and_assoc]

theorem recordsOf_perm (perm : qs.Perm ps) : (recordsOf ref qs).Perm (recordsOf ref ps) :=
  (perm.filter _).map _

theorem Distinct.rivals (distinct : Distinct ps) (ref : NameExt) : Rivals (recordsOf ref ps) where
  filled info member := by
    obtain ⟨p, _, _, rfl⟩ := mem_recordsOf.mp member
    rfl
  apart a memberA b memberB ties := by
    obtain ⟨p, atP, sameP, rfl⟩ := mem_recordsOf.mp memberA
    obtain ⟨q, atQ, sameQ, rfl⟩ := mem_recordsOf.mp memberB
    rw [distinct.apart p atP q atQ (sameP.trans sameQ.symm) ties]

theorem Distinct.perm (distinct : Distinct ps) (perm : qs.Perm ps) : Distinct qs where
  proper p member := distinct.proper p (perm.mem_iff.mp member)
  nodup := perm.nodup_iff.mpr distinct.nodup
  apart p memberP q memberQ := distinct.apart p (perm.mem_iff.mp memberP) q (perm.mem_iff.mp memberQ)

theorem preferred_eq_challenge (new : Mandata) (old : Option Mandata) :
    preferred new old = Contest.challenge Prefers new old := by
  cases old <;> rfl

theorem refused_ties {new old : Mandata} (refused : replaceAction (stored new) (stored old) = .fail) :
    (stored new).Ties (stored old) ∧ dashIfUnset new.comp ≠ dashIfUnset old.comp := by
  obtain ⟨id, mtime, pointer, comp⟩ := (replaceAction_fail_iff rfl rfl).mp refused
  exact ⟨⟨id, mtime, pointer⟩, fun same => comp (congrArg some same)⟩

/-- A page clashes with the store only if it clashes with a page that made it. -/
theorem Tidy.calm (tidy : Tidy loc db) (proper : p.Proper)
    (entries : ∀ ref, entry loc db ref = Contest.champion Prefers (recordsOf ref ps))
    (peace : ∀ q ∈ ps, ¬p.ClashesWith loc q) : ¬(Op.store p.data p.base).Clash loc db := by
  have pageKey : PageName (nameToKey loc p.base) := pageName_nameToKey.mpr proper.1
  obtain ⟨g, ok, holds, _⟩ := tidy.tight _ pageKey
  rw [← refuses_iff_clash ok holds]
  intro refuses
  match g, ok, holds, refuses with
  | .singular info, ok, holds, ⟨different, refused⟩ =>
    obtain ⟨oldClean, oldBelongs⟩ := Mandata.ref_clean pageKey ok
    have okOld := ok
    have holdsOld := holds
    rw [← oldBelongs] at okOld holdsOld
    have present := entry_eq_find (info.ref (nameToKey loc p.base)) oldClean.1 okOld holdsOld
    rw [oldBelongs, Group.find, if_pos rfl, entries] at present
    obtain ⟨q, member, sameRef, sameRecord⟩ := mem_recordsOf.mp (Contest.champion_mem present)
    rw [← sameRecord] at refused
    obtain ⟨ties, comp⟩ := refused_ties refused
    refine peace q member ⟨?_, fun same => different ?_, ties, comp⟩
    · rw [← oldBelongs, ← sameRef]
      rfl
    · rw [← sameRef, ← same]
      rfl

/-- Without clashes the stored pages make a tidy index, in which each pair has
the champion of its records. -/
theorem storeAll_tidy (proper : ∀ p ∈ ps, p.Proper) (peace : ∀ p ∈ ps, ∀ q ∈ ps, ¬p.ClashesWith loc q) :
    ∃ db, storeAll loc ∅ ps = .ok db ∧ Tidy loc db ∧
      ∀ ref, entry loc db ref = Contest.champion Prefers (recordsOf ref ps) := by
  induction ps using List.reverseRecOn with
  | nil =>
    refine ⟨∅, rfl, tidy_empty loc, fun ref => ?_⟩
    by_cases page : PageName ref.name <;> simp [entry, page, recordsOf]
  | append_singleton ps p ih =>
    obtain ⟨db, run, tidy, entries⟩ := ih (fun q member => proper q (List.mem_append_left _ member))
      (fun q memberQ r memberR => peace q (List.mem_append_left _ memberQ) r (List.mem_append_left _ memberR))
    have properP := proper p (by simp)
    have calm := tidy.calm properP entries (fun q member => peace p (by simp) q (List.mem_append_left _ member))
    obtain ⟨code, db', store, tidy', update⟩ := tidy.store properP.1 properP.2 calm
    refine ⟨db', ?_, tidy', fun ref => ?_⟩
    · rw [storeAll_snoc, run]
      simp [Except.bind, store, Functor.map, Except.map]
    · rw [update, offered, Function.update_apply, preferred_eq_challenge]
      by_cases here : ref = p.ref
      · have records : recordsOf p.ref (ps ++ [p]) = recordsOf p.ref ps ++ [stored p.data] := by
          simp [recordsOf]
        rw [here, records, Contest.champion_snoc, ← entries]
        exact if_pos rfl
      · have apart : ¬p.ref = ref := fun same => here same.symm
        have records : recordsOf ref (ps ++ [p]) = recordsOf ref ps := by simp [recordsOf, apart]
        rw [records, ← entries]
        exact if_neg here

/-- A peaceful set of pages gives the same index in every order. -/
theorem reproducible_of_peaceful (distinct : Distinct ps) (peaceful : Peaceful loc ps) : Reproducible loc ps := by
  obtain ⟨peace, calm⟩ := peaceful
  obtain ⟨db, run, tidy, entries⟩ := storeAll_tidy distinct.proper peace
  refine ⟨db, fun qs perm => ?_⟩
  obtain ⟨db', run', tidy', entries'⟩ := storeAll_tidy (distinct.perm perm).proper
    (fun p memberP q memberQ => peace p (perm.mem_iff.mp memberP) q (perm.mem_iff.mp memberQ))
  rw [run']
  refine congrArg Except.ok (tidy'.eq_of_entry tidy (funext fun ref => ?_))
  rw [entries, entries']
  by_cases nonempty : recordsOf ref ps = []
  · have empty : recordsOf ref qs = [] := (nonempty ▸ recordsOf_perm perm).eq_nil
    rw [nonempty, empty]
  · obtain ⟨w, member, best⟩ := (distinct.rivals ref).best nonempty (calm ref)
    have members : ∀ x, x ∈ recordsOf ref qs ↔ x ∈ recordsOf ref ps := fun x => (recordsOf_perm perm).mem_iff
    rw [Contest.champion_of_best member best, Contest.champion_of_best ((members w).mpr member)
      (fun x inside => best x ((members x).mp inside))]

/-- In an upset each of two records can be the last word. -/
theorem not_upset_of_reproducible (distinct : Distinct ps) (reproducible : Reproducible loc ps)
    (peace : ∀ p ∈ ps, ∀ q ∈ ps, ¬p.ClashesWith loc q) (ref : NameExt) : ¬Upset (recordsOf ref ps) := by
  intro upset
  obtain ⟨db, same⟩ := reproducible
  obtain ⟨u, memberU, s, memberS, differ, uBeats, sBeats⟩ := (distinct.rivals ref).upset upset
  have lastWord : ∀ w ∈ recordsOf ref ps, (∀ x ∈ recordsOf ref ps, x ≠ w → Prefers w x) →
      entry loc db ref = some w := by
    intro w member beats
    obtain ⟨p, atP, sameRef, rfl⟩ := mem_recordsOf.mp member
    have order : (ps.erase p ++ [p]).Perm ps :=
      (List.perm_append_comm.trans (List.perm_cons_erase atP).symm)
    obtain ⟨db', run, _, entries⟩ := storeAll_tidy (distinct.perm order).proper
      (fun a memberA b memberB => peace a (order.mem_iff.mp memberA) b (order.mem_iff.mp memberB))
    have sameStore : db' = db := Except.ok.inj (run.symm.trans (same _ order))
    have records : recordsOf ref (ps.erase p ++ [p]) = recordsOf ref (ps.erase p) ++ [stored p.data] := by
      simp [recordsOf, sameRef]
    rw [← sameStore, entries, records]
    refine Contest.champion_last fun x inside => ?_
    obtain ⟨q, atQ, sameQ, rfl⟩ := mem_recordsOf.mp inside
    have atPs : q ∈ ps := List.mem_of_mem_erase atQ
    refine beats _ (mem_recordsOf.mpr ⟨q, atPs, sameQ, rfl⟩) fun sameRecord => ?_
    have samePage := distinct.apart q atPs p atP (sameQ.trans sameRef.symm) (by simp [Mandata.Ties, sameRecord])
    exact (distinct.nodup.mem_erase_iff.mp atQ).1 samePage
  have sameRecord := (lastWord u memberU uBeats).symm.trans (lastWord s memberS sBeats)
  exact differ (congrArg Mandata.id (Option.some.inj sameRecord))

theorem storeAll_cons (loc : Locale) (db : Store) (p : Page) (ps : List Page) :
    storeAll loc db (p :: ps) = (Prod.snd <$> dbstore loc db p.data p.base).bind fun after => storeAll loc after ps :=
  List.foldlM_cons

theorem storeAll_cons_ok {code : Nat} (run : dbstore loc db p.data p.base = .ok (code, db')) :
    storeAll loc db (p :: ps) = storeAll loc db' ps := by
  rw [storeAll_cons, run]
  rfl

/-- Whether a pair is settled or spoilt does not change by storing more pages. -/
theorem storeAll_leftover (loose : Loose loc db) (proper : ∀ p ∈ ps, p.Proper)
    (run : storeAll loc db ps = .ok db') (clean : ref.Clean) :
    (Settled loc db ref → Settled loc db' ref) ∧ (Spoilt loc db ref → Spoilt loc db' ref) := by
  induction ps generalizing db with
  | nil =>
    cases run
    exact ⟨id, id⟩
  | cons p ps ih =>
    obtain ⟨page, cleanData⟩ := proper p (by simp)
    cases step : dbstore loc db p.data p.base with
    | error fatal =>
      rw [storeAll_cons, step] at run
      cases run
    | ok result =>
      obtain ⟨code, after⟩ := result
      rw [storeAll_cons_ok step] at run
      have rest := ih (loose.step page cleanData step).1
        (fun q member => proper q (List.mem_cons_of_mem _ member)) run
      exact ⟨fun settled => rest.1 (settled.step loose clean page cleanData step),
        fun spoilt => rest.2 (spoilt.step loose clean page cleanData step)⟩

/-- Two clashing pages stored one after the other: the first is settled, the
second spoilt. -/
theorem clash_pair (properP : p.Proper) (properQ : q.Proper) (clash : q.ClashesWith loc p) :
    ∃ db, Loose loc db ∧ Settled loc db p.ref ∧ Spoilt loc db q.ref ∧
      ∀ ps, storeAll loc ∅ (p :: q :: ps) = storeAll loc db ps := by
  obtain ⟨sameKey, differ, ⟨id, mtime, pointer⟩, comp⟩ := clash
  have startLoose : Loose loc ∅ := fun k cont _ atKey => by simp at atKey
  have startOk : Group.absent.Ok loc (nameToKey loc p.base) := trivial
  have startHolds : Holds loc ∅ (nameToKey loc p.base) .absent := ⟨Store.fetch_empty, fun _ _ _ => Store.fetch_empty⟩
  obtain ⟨code, db, outcome⟩ := @dbstore_group_absent loc ∅ p.data p.base properP.1 startHolds
  have ok := startOk.store properP.1 properP.2
  have holds := outcome.held nofun
  simp only [Group.offer] at ok holds
  have oldRef : ((stored p.data).named p.base (nameToKey loc q.base)).ref (nameToKey loc q.base) = p.ref :=
    ref_named _
  have refuses : (Group.singular ((stored p.data).named p.base (nameToKey loc q.base))).Refuses
      (nameToKey loc q.base) ⟨q.base, q.data.ext⟩ (stored q.data) := by
    refine ⟨fun same => differ (same.symm.trans oldRef), ?_⟩
    exact (replaceAction_fail_iff rfl rfl).mpr ⟨id, mtime, pointer, fun same => comp (Option.some.inj same)⟩
  rw [← sameKey] at ok holds
  obtain ⟨db', run, atKey, written, unwritten⟩ := dbstore_clash properQ.1 properQ.2 ok holds refuses
  have lists := lists_pair properQ.1 properQ.2 ok
  rw [oldRef] at atKey written lists
  have loose := ((startLoose.step properP.1 properP.2 outcome.run).1.step properQ.1 properQ.2 run).1
  have counts : ∀ ref, (SortedList.add nameExtCompare q.ref (SortedList.add nameExtCompare p.ref [])).count ref =
      [q.ref, p.ref].count ref := fun ref => (SortedList.add_perm _ _).count_eq ref
  have keyP : nameToKey loc p.ref.name = nameToKey loc q.base := sameKey.symm
  refine ⟨db', loose, ⟨_, _, keyP ▸ atKey, keyP ▸ lists, ?_, ?_⟩,
    ⟨_, _, atKey, lists, Or.inl ⟨?_, unwritten⟩⟩, fun ps => ?_⟩
  · rw [show (⟨q.base, q.data.ext⟩ : NameExt) = q.ref from rfl, counts]
    simp [differ]
  · rw [written]
    simp
  · rw [show (⟨q.base, q.data.ext⟩ : NameExt) = q.ref from rfl, counts]
    simp [differ.symm]
  · rw [storeAll_cons_ok outcome.run, storeAll_cons_ok run]

theorem Page.ClashesWith.symm (clash : p.ClashesWith loc q) : q.ClashesWith loc p := by
  obtain ⟨sameKey, differ, ⟨id, mtime, pointer⟩, comp⟩ := clash
  exact ⟨sameKey.symm, differ.symm, ⟨id.symm, mtime.symm, pointer.symm⟩, comp.symm⟩

/-- Of two clashing pages the one that comes second stays spoilt. -/
theorem not_clash_of_reproducible (distinct : Distinct ps) (reproducible : Reproducible loc ps)
    (atP : p ∈ ps) (atQ : q ∈ ps) : ¬p.ClashesWith loc q := by
  intro clash
  obtain ⟨db, same⟩ := reproducible
  have different : q ≠ p := by
    rintro rfl
    exact clash.2.1 rfl
  have atQ' : q ∈ ps.erase p := (distinct.nodup.mem_erase_iff).mpr ⟨different, atQ⟩
  have order : (p :: q :: (ps.erase p).erase q).Perm ps :=
    ((List.perm_cons_erase atQ').symm.cons p).trans (List.perm_cons_erase atP).symm
  have rest : ∀ r ∈ (ps.erase p).erase q, r.Proper :=
    fun r member => distinct.proper r (List.mem_of_mem_erase (List.mem_of_mem_erase member))
  have properP := distinct.proper p atP
  have properQ := distinct.proper q atQ
  have cleanQ : q.ref.Clean := ⟨properQ.1, properQ.2.ext⟩
  obtain ⟨first, loose, _, spoilt, runs⟩ := clash_pair properP properQ clash.symm
  obtain ⟨second, loose', settled, _, runs'⟩ := clash_pair properQ properP clash
  have run := (runs _).symm.trans (same _ order)
  have run' := (runs' _).symm.trans (same _ ((List.Perm.swap p q _).trans order))
  exact ((storeAll_leftover loose' rest run' cleanQ).1 settled).not_spoilt
    ((storeAll_leftover loose rest run cleanQ).2 spoilt)

/-- The index is reproducible precisely when no two of the pages clash and no page
has a link by `.so` newer than all its real pages. -/
theorem reproducible_iff_peaceful (distinct : Distinct ps) : Reproducible loc ps ↔ Peaceful loc ps := by
  refine ⟨fun reproducible => ?_, reproducible_of_peaceful distinct⟩
  have peace : ∀ p ∈ ps, ∀ q ∈ ps, ¬p.ClashesWith loc q :=
    fun p atP q atQ => not_clash_of_reproducible distinct reproducible atP atQ
  exact ⟨peace, not_upset_of_reproducible distinct reproducible peace⟩

/-- A page foo with the given extension, id and mtime. -/
def fooPage (ext : String) (id : UInt8) (mtime : Int) : Page := ⟨samplePage ext id mtime "-", ascii "foo"⟩

theorem reproducible_iff_peaceful_sections :
    Distinct [fooPage "1" ultMan 5, fooPage "3" soMan 7] ∧
    Reproducible .posix [fooPage "1" ultMan 5, fooPage "3" soMan 7] := by
  have distinct : Distinct [fooPage "1" ultMan 5, fooPage "3" soMan 7] := by
    refine ⟨?_, by decide, by decide⟩
    intro p member
    simp only [List.mem_cons, List.not_mem_nil, or_false] at member
    rcases member with rfl | rfl
    · exact ⟨by decide, by decide⟩
    · exact ⟨by decide, by decide⟩
  refine ⟨distinct, (reproducible_iff_peaceful distinct).mpr ⟨?_, fun ref => ?_⟩⟩
  · intro p memberP q memberQ clash
    simp only [List.mem_cons, List.not_mem_nil, or_false] at memberP memberQ
    rcases memberP with rfl | rfl <;> rcases memberQ with rfl | rfl <;>
      exact absurd clash.2.2 (by decide)
  · rintro ⟨⟨u, atU, isReal⟩, _, s, atS, isLink, _⟩
    obtain ⟨p, memberP, refP, rfl⟩ := mem_recordsOf.mp atU
    obtain ⟨q, memberQ, refQ, rfl⟩ := mem_recordsOf.mp atS
    simp only [List.mem_cons, List.not_mem_nil, or_false] at memberP memberQ
    rcases memberP with rfl | rfl <;> rcases memberQ with rfl | rfl
    · exact absurd isLink (by decide)
    · exact absurd (refP.trans refQ.symm) (by decide)
    · exact absurd isLink (by decide)
    · exact absurd isReal (by decide)

/-- The real page foo(1) and a newer link by `.so` of that name: the last one
stored stays. -/
theorem not_reproducible_newer_link :
    Distinct [fooPage "1" ultMan 5, fooPage "1" soMan 7] ∧
    (storeAll .posix ∅ [fooPage "1" ultMan 5, fooPage "1" soMan 7]).map (·.fetch (ascii "foo")) ≠
      (storeAll .posix ∅ [fooPage "1" soMan 7, fooPage "1" ultMan 5]).map (·.fetch (ascii "foo")) ∧
    ¬Reproducible .posix [fooPage "1" ultMan 5, fooPage "1" soMan 7] := by
  have distinct : Distinct [fooPage "1" ultMan 5, fooPage "1" soMan 7] := by
    refine ⟨?_, by decide, by decide⟩
    intro p member
    simp only [List.mem_cons, List.not_mem_nil, or_false] at member
    rcases member with rfl | rfl
    · exact ⟨by decide, by decide⟩
    · exact ⟨by decide, by decide⟩
  have differ : (storeAll .posix ∅ [fooPage "1" ultMan 5, fooPage "1" soMan 7]).map (·.fetch (ascii "foo")) ≠
      (storeAll .posix ∅ [fooPage "1" soMan 7, fooPage "1" ultMan 5]).map (·.fetch (ascii "foo")) := by
    decide +kernel
  refine ⟨distinct, differ, ?_⟩
  rintro ⟨db, same⟩
  rw [same _ (.refl _), same _ (.swap _ _ _)] at differ
  exact differ rfl

end ManDb
