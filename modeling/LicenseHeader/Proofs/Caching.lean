import LicenseHeader.Proofs.Loop

/-! What the header cache does for a scan. Asked in any order and with any styles, it answers in the
style an extension was first asked for with; and as a registry has one style for an extension, a
scan that makes each header anew reports the same and leaves the same files. -/
namespace LicenseHeader

namespace HeaderCache

/-- A new cache after calls, each for the header of an extension in a style. -/
def afterCalls (license : License) (calls : List (String × Style)) : HeaderCache :=
  calls.foldl (fun c call => (c.get call.1 call.2).2) (new license)

/-- A cache with the headers asked for in some calls, each in the style of the first call for its
extension. -/
structure Answers (license : License) (calls : List (String × Style)) (c : HeaderCache) : Prop where
  license_eq : c.license = license
  distinct : (c.headers.map (·.1)).Nodup
  extensions_eq : c.extensions = (calls.map (·.1)).toFinset
  lookup_eq : ∀ extension,
    c.headers.lookup extension = (calls.lookup extension).map (·.header license.text)

variable {license : License} {calls : List (String × Style)} {c : HeaderCache}

/-- The answer to a call is kept from the first call for its extension, or is the first itself. -/
theorem Answers.get (h : Answers license calls c) (extension : String) (style : Style) :
    ((calls ++ [(extension, style)]).lookup extension).map (·.header license.text) =
        some (c.get extension style).1 ∧
      Answers license (calls ++ [(extension, style)]) (c.get extension style).2 := by
  have hanswer : ((calls ++ [(extension, style)]).lookup extension).map (·.header license.text) =
      some (c.get extension style).1 := by
    rw [fst_get, h.license_eq, h.lookup_eq, List.lookup_append, List.lookup_cons_self]
    cases calls.lookup extension <;> rfl
  refine ⟨hanswer, ?_⟩
  constructor
  case license_eq => rw [license_get, h.license_eq]
  case distinct => exact nodup_get h.distinct extension style
  case extensions_eq =>
    rw [extensions_get, h.extensions_eq]
    simp
  case lookup_eq =>
    intro other
    rw [lookup_get]
    by_cases heq : other = extension
    · rw [if_pos heq, heq, hanswer]
    · have hother : [(extension, style)].lookup other = none := by
        rw [List.lookup_cons, beq_false_of_ne heq, List.lookup_nil]
      rw [if_neg heq, h.lookup_eq, List.lookup_append, hother, Option.or_none]

theorem answers_afterCalls (license : License) (calls : List (String × Style)) :
    Answers license calls (afterCalls license calls) := by
  induction calls using List.reverseRecOn with
  | nil => exact ⟨rfl, List.nodup_nil, rfl, fun _ => rfl⟩
  | append_singleton calls call ih =>
    rw [afterCalls, List.foldl_append]
    exact (ih.get call.1 call.2).2

end HeaderCache

namespace Scan

def checkFileAnew (registry : Registry) (license : License) (write : Bool) (fs : FileSystem)
    (path : Path) : Except ScanError (Option Outcome) × FileSystem :=
  match registry.lookupPath path with
  | none => (.ok none, fs)
  | some (_, style) =>
    match checkHeader write fs path (style.header license.text) with
    | .error e => (.error (.file path e), fs)
    | .ok (outcome, fs) => (.ok (some outcome), fs)

/-- Check items in order, up to the first failure, with a header made for each file. `seen` has the
extensions of the files before. -/
def checkItemsAnew (registry : Registry) (license : License) (write : Bool) (seen : Finset String)
    (fs : FileSystem) (r : Report) : Items → Except ScanError Report × FileSystem
  | [] => (.ok { r with summary := { r.summary with extensions := seen.card } }, fs)
  | .error e :: _ => (.error e, fs)
  | .ok path :: rest =>
    match checkFileAnew registry license write fs path with
    | (.error e, fs) => (.error e, fs)
    | (.ok outcome, fs) =>
      let seen := ((registry.lookupPath path).map (·.1)).toFinset ∪ seen
      checkItemsAnew registry license write seen fs (r.record path outcome) rest

def scanAnew (registry : Registry) (write : Bool) (license : License) (fs : FileSystem)
    (items : Items) : Except ScanError Report × FileSystem :=
  checkItemsAnew registry license write ∅ fs .empty items

variable {registry : Registry} {license : License} {s : State}

theorem checkFileAnew_eq (hc : HeaderCache.Renders registry license s.cache) (write : Bool)
    (p : Path) :
    checkFileAnew registry license write s.fs p =
      ((checkFile registry write s p).1, (checkFile registry write s p).2.fs) := by
  rw [checkFileAnew, checkFile]
  cases hlookup : registry.lookupPath p with
  | none => rfl
  | some e =>
    obtain ⟨extension, style⟩ := e
    have hheader : (s.cache.get extension style).1 = style.header license.text :=
      (hc.get (Registry.lookupPath_eq_some.mp hlookup).2).1
    simp only [hheader]
    cases checkHeader write s.fs p (style.header license.text) with
    | error e => rfl
    | ok checked => rfl

theorem checkItemsAnew_eq (hc : HeaderCache.Renders registry license s.cache) (write : Bool)
    (r : Report) (items : Items) :
    checkItemsAnew registry license write s.cache.extensions s.fs r items =
      ((checkItems registry write s r items).1, (checkItems registry write s r items).2.fs) := by
  induction items generalizing s r with
  | nil => rw [checkItems, checkItemsAnew, hc.size]
  | cons item items ih =>
    cases item with
    | error e => rfl
    | ok p =>
      obtain ⟨-, hcache, hext⟩ := checkFile_step hc write p
      rw [checkItems, checkItemsAnew, checkFileAnew_eq hc, ← hext]
      generalize checkFile registry write s p = checked at hcache
      obtain ⟨result, s'⟩ := checked
      cases result with
      | error e => rfl
      | ok o => exact ih hcache (r.record p o)

/-- Each call of a new cache gives the header in the style of the first call for its extension, the
cache has a header for each extension asked for, and none only before the first call. So what a scan
comes to is what it comes to without a cache. -/
theorem scan_cached (license : License) :
    (∀ (calls : List (String × Style)) (extension : String) (style : Style),
      let c := HeaderCache.afterCalls license calls
      let calls' := calls ++ [(extension, style)]
      (calls'.lookup extension).map (·.header license.text) = some (c.get extension style).1 ∧
        (c.get extension style).2.size = (calls'.map (·.1)).toFinset.card ∧
        (c.isEmpty = true ↔ calls = [])) ∧
    ∀ (registry : Registry) (write : Bool) (fs : FileSystem) (items : Items),
      scan registry write license fs items = scanAnew registry write license fs items := by
  have hcalls (calls : List (String × Style)) :
      (HeaderCache.afterCalls license calls).isEmpty = true ↔ calls = [] := by
    have h := HeaderCache.answers_afterCalls license calls
    rw [HeaderCache.isEmpty_iff_extensions, h.extensions_eq]
    simp
  refine ⟨fun calls extension style => ?_, fun registry write fs items => ?_⟩
  · obtain ⟨hanswer, h⟩ := (HeaderCache.answers_afterCalls license calls).get extension style
    refine ⟨hanswer, ?_, hcalls calls⟩
    rw [HeaderCache.size_of_nodup h.distinct, h.extensions_eq]
  · have hnew := HeaderCache.renders_new registry license
    exact (checkItemsAnew_eq (s := ⟨fs, .new license⟩) hnew write .empty items).symm

end Scan
end LicenseHeader
