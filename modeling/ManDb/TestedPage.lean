import ManDb.Index.Offers
import ManDb.Index.Resolve
import ManDb.TestManfile

namespace ManDb

/-- A page with something in it that is no link and includes no other page. -/
structure PageHost.Regular (h : PageHost) (file : Bytes) : Prop where
  nonempty : (h.lstat file).size ≠ 0
  notLink : (h.lstat file).link.isLink = false
  single : (h.lstat file).link.nlink ≤ 1
  opens : ∃ d, h.links.openPage file = some d ∧ testForInclude (findIncludeDirective d) = none

/-- Neither the ultimate source of the file nor its description is known yet. -/
structure PageState.Unknown (s : PageState) (file : Bytes) : Prop where
  ult : s.ultCache (file, ⟨true, true, true⟩) = none
  whatis : s.whatisMap file = none

/-- What `test_manfile` asks to store for a page that is its own source. -/
def PageHost.request (h : PageHost) (file path base : Bytes) (found : Mandata) (filter : Option Bytes) : StoreRequest :=
  ⟨h.host, { found with name := none, mtime := (h.lstat file).mtime, id := ultMan, pointer := none, filter := filter },
    some path, base, [file, file]⟩

/-- The record of the page under its own name. -/
def StoreRequest.ownRecord (r : StoreRequest) (whatis : Option Bytes) : Mandata :=
  { r.info with name := none, pointer := none, whatis := whatis }

/-- The record under another name, which points to the page. -/
def StoreRequest.referenceRecord (r : StoreRequest) : Mandata :=
  { r.info with name := none, id := whatisMan, pointer := some r.base, whatis := none }

/-- The record for a description. -/
def StoreRequest.recordFor (r : StoreRequest) (desc : PageDescription) : Mandata :=
  if r.base = desc.name then r.ownRecord desc.whatis else r.referenceRecord

variable {loc : Locale} {h : PageHost} {s : PageState} {comp file path base name : Bytes} {found : Mandata}
  {filter : Option Bytes} {text : Bytes} {desc : PageDescription} {descs : List PageDescription} {cache : UltCache}
  {call : Bytes × Mandata} {db : Store}

theorem PageHost.Regular.ultSrc (regular : h.Regular file) (unknown : cache (file, ⟨true, true, true⟩) = none)
    (path : Bytes) :
    ∃ cache', ultSrcCached h.links cache file path (some (h.lstat file).link) ⟨true, true, true⟩ =
      (some ⟨file, [file, file]⟩, cache') := by
  obtain ⟨d, opens, noInclude⟩ := regular.opens
  have own : h.links.resolveLinks file (some (h.lstat file).link) ⟨true, true, true⟩ = some file := by
    have few : ¬1 < (h.lstat file).link.nlink := Nat.not_lt.mpr regular.single
    simp [LinkHost.resolveLinks, regular.notLink, few]
  have found : h.links.ultSrcMiss file path (some (h.lstat file).link) ⟨true, true, true⟩ =
      some ⟨file, [file, file]⟩ := by
    simp [LinkHost.ultSrcMiss, own, followSoLinks, opens, noInclude]
  refine ⟨_, Prod.ext ?_ rfl⟩
  rw [ultSrcCached, unknown]
  exact found

theorem testManfileId_self (compExts : List Bytes) (gunzip : Bool) (file : Bytes) :
    testManfileId compExts gunzip file file = ultMan := if_pos rfl

/-- The index knows no page of that name and extension, or one that is compressed like all the others. -/
theorem Orderly.exists_alike (orderly : Orderly loc comp db) (page : PageName base) (ext : Bytes) :
    ∃ old, dblookupExact loc db base (some ext) true = .ok old ∧ ∀ info ∈ old, info.comp = some comp := by
  have pageKey : PageName (nameToKey loc base) := pageName_nameToKey.mpr page
  obtain ⟨g, ok, holds⟩ := orderly.wf.group pageKey
  match g, ok, holds with
  | .absent, _, holds =>
    exact ⟨none, dblookupExact_ok _ (dblookup_absent holds.simple), nofun⟩
  | .singular info, ok, holds =>
    have same := orderly.singular page ok holds
    refine ⟨_, dblookupExact_ok _ (dblookup_record ok.1 ok.2.1 holds.simple), fun other member => ?_⟩
    split at member
    · rw [← Option.some.inj member]
      exact same
    · cases member
  | .indexed refs record, ok, holds =>
    obtain ⟨infos, run, answers⟩ := @dblookup_indexed loc db base (some ext) true true refs record page ok holds
    refine ⟨infos.head?, dblookupExact_ok _ run, fun other member => ?_⟩
    obtain ⟨ref, old, present, _, rfl⟩ := (answers.mem other).mp (List.mem_of_head? member)
    exact orderly.alike ref old present

/-- The page itself is what its references point to. -/
theorem request_pointerInfo (parsed : filenameInfo h.host.compExts file = some found) :
    (h.request file path base found filter).pointerInfo = some found := by
  have traced : (h.request file path base found filter).traceInfo file = some found := parsed
  simp [StoreRequest.pointerInfo, PageHost.request, StoreRequest.traceInfo, parsed]

section Request

variable (parsed : filenameInfo h.host.compExts file = some found) (named : found.name = some base)

include parsed named

/-- Under another name than its own the page is a reference. -/
theorem request_describe (desc : PageDescription) :
    (h.request file path base found filter).describe desc =
      if base = desc.name then .real ((h.request file path base found filter).ownRecord desc.whatis)
      else .reference
        { (h.request file path base found filter).referenceRecord with name := some desc.name, pointer := none } := by
  by_cases own : base = desc.name
  · rw [if_pos own, StoreRequest.describe]
    exact if_pos own
  · have other : found.name ≠ some desc.name := fun same => own (Option.some.inj (named.symm.trans same))
    have traced : ∀ files : List Bytes, (∀ f ∈ files, f = file) → ∀ entry,
        (h.request file path base found filter).findRealPage desc.name files entry false = some (entry, false) := by
      intro files same entry
      induction files with
      | nil => rfl
      | cons f files ih =>
        obtain ⟨rfl, same⟩ := List.forall_mem_cons.mp same
        have info : (h.request f path base found filter).traceInfo f = some found := parsed
        rw [StoreRequest.findRealPage, info]
        exact (if_pos other).trans (ih same)
    rw [if_neg own, StoreRequest.describe]
    refine (if_neg own).trans ?_
    rw [traced _ (by simp [PageHost.request])]
    rfl

theorem mem_request_offers :
    call ∈ (h.request file path base found filter).offers found descs ↔
      ∃ desc ∈ descs, call = (desc.name, (h.request file path base found filter).recordFor desc) := by
  have described := @request_describe h file path base found filter parsed named
  simp only [StoreRequest.offers, List.mem_append, StoreRequest.realEntries, StoreRequest.references, List.mem_map,
    List.mem_filterMap, described, StoreRequest.recordFor]
  constructor
  · rintro (⟨desc, member, kept⟩ | ⟨entry, ⟨desc, member, kept⟩, rfl⟩)
    · by_cases own : base = desc.name
      · rw [if_pos own] at kept
        exact ⟨desc, member, (Option.some.inj kept).symm.trans (congrArg _ (if_pos own).symm)⟩
      · rw [if_neg own] at kept
        cases kept
    · by_cases own : base = desc.name
      · rw [if_pos own] at kept
        cases kept
      · rw [if_neg own] at kept
        obtain rfl := Option.some.inj kept
        refine ⟨desc, member, ?_⟩
        rw [referenceCall, named]
        exact congrArg _ (if_neg own).symm
  · rintro ⟨desc, member, rfl⟩
    by_cases own : base = desc.name
    · refine Or.inl ⟨desc, member, ?_⟩
      rw [if_pos own]
      exact congrArg (fun record => some (desc.name, record)) (if_pos own).symm
    · refine Or.inr ⟨_, ⟨desc, member, by rw [if_neg own]⟩, ?_⟩
      rw [referenceCall, named]
      exact congrArg _ (if_neg own).symm

end Request

/-- A page is tested: what it describes is offered to the index. -/
theorem testManfile_regular (orderly : Orderly loc comp s.db) (regular : h.Regular file) (unknown : s.Unknown file)
    (parsed : filenameInfo h.host.compExts file = some found) (named : found.name = some base) (page : PageName base)
    (alike : found.comp.getD [dash] = comp) (scanned : h.findName file (baseName file) = (some text, filter))
    (storable : ∀ call ∈
        (h.request file path base found filter).offers found (parseDescriptions (some base) (some text)),
      Storable comp call) :
      ∃ s', (testManfile loc h false file path s).state = .ok s' ∧ Orderly loc comp s'.db ∧
        entry loc s'.db = offerAll (entry loc s.db)
          ((h.request file path base found filter).offers found (parseDescriptions (some base) (some text))) := by
  obtain ⟨old, looked, oldAlike⟩ := orderly.exists_alike page found.ext
  obtain ⟨cache, traced⟩ := regular.ultSrc unknown.ult path
  have traces : (h.request file path base found filter).trace ≠ [] := List.cons_ne_nil _ _
  obtain ⟨db, stored, orderly', map⟩ := storeDescriptions_offers orderly traces (request_pointerInfo parsed) storable
  let s' : PageState := ⟨db, cache, Function.update s.whatisMap file (some (some text, filter)), s.pages + 1⟩
  have stores : (tracePage loc h false s file path base
      { found with name := none, mtime := (h.lstat file).mtime }).state = .ok s' := by
    have own : testManfileId h.host.compExts h.gunzip file file = ultMan := testManfileId_self _ _ _
    rw [PageHost.request] at stored
    simp only [tracePage, traced, storePage, unknown.whatis, scanned, own, Option.getD_none, storeCall, ScanRun.step,
      Bool.false_eq_true, if_false, stored]
    rfl
  refine ⟨s', ?_, orderly', map⟩
  simp only [testManfile, parsed, named, Option.getD_some, if_neg regular.nonempty, looked]
  cases old with
  | none => exact stores
  | some old =>
    have same : old.comp.getD [dash] = found.comp.getD [dash] := by
      rw [oldAlike old rfl, alike]
      rfl
    simp only [same, ne_eq, not_true_eq_false, if_false]
    exact stores

end ManDb
