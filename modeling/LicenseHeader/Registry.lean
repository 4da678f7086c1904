import LicenseHeader.Path.Basic
import LicenseHeader.Style
import LicenseHeader.Text

/-! Registries: the comment style of each file extension that is scanned. -/
namespace LicenseHeader

/-- Extensions with their styles, in the byte order of the extensions. -/
structure Registry where
  entries : List (String × Style)
  ordered : entries.Pairwise fun a b => Text.byteLt a.1 b.1

namespace Registry

/-- Put an entry at its place, instead of one with the same extension. -/
def insertEntry (extension : String) (style : Style) :
    List (String × Style) → List (String × Style)
  | [] => [(extension, style)]
  | e :: rest =>
    if e.1 = extension then (extension, style) :: rest
    else if Text.byteLt extension e.1 then (extension, style) :: e :: rest
    else e :: insertEntry extension style rest

theorem mem_insertEntry {extension : String} {style : Style} {es : List (String × Style)}
    {e : String × Style} (h : e ∈ insertEntry extension style es) :
    e = (extension, style) ∨ e ∈ es := by
  induction es with
  | nil => simpa [insertEntry] using h
  | cons d rest ih =>
    rw [insertEntry] at h
    split at h
    · rcases List.mem_cons.1 h with h | h
      · exact .inl h
      · exact .inr (List.mem_cons_of_mem _ h)
    · split at h
      · exact List.mem_cons.1 h
      · rcases List.mem_cons.1 h with h | h
        · exact .inr (h ▸ List.mem_cons_self)
        · exact (ih h).imp_right (List.mem_cons_of_mem _)

theorem ordered_insertEntry (extension : String) (style : Style) {es : List (String × Style)}
    (h : es.Pairwise fun a b => Text.byteLt a.1 b.1) :
    (insertEntry extension style es).Pairwise fun a b => Text.byteLt a.1 b.1 := by
  induction es with
  | nil => simp [insertEntry]
  | cons e rest ih =>
    obtain ⟨he, hrest⟩ := List.pairwise_cons.1 h
    rw [insertEntry]
    split
    · next eq => exact List.pairwise_cons.2 ⟨fun b hb => eq ▸ he b hb, hrest⟩
    · next ne =>
      split
      · next lt =>
        refine List.pairwise_cons.2 ⟨fun b hb => ?_, h⟩
        rcases List.mem_cons.1 hb with rfl | hb
        · exact lt
        · exact Text.byteLt_trans lt (he b hb)
      · next nlt =>
        refine List.pairwise_cons.2 ⟨fun b hb => ?_, ih hrest⟩
        rcases mem_insertEntry hb with rfl | hb
        · exact Text.byteLt_of_not_byteLt nlt (Ne.symm ne)
        · exact he b hb

def insert (r : Registry) (extension : String) (style : Style) : Registry :=
  ⟨insertEntry extension style r.entries, ordered_insertEntry extension style r.ordered⟩

def empty : Registry := ⟨[], List.Pairwise.nil⟩

def insertAll (r : Registry) (styles : List (String × Style)) : Registry :=
  styles.foldl (fun r e => r.insert e.1 e.2) r

def builtin : Registry := empty.insertAll Style.builtinTable

def lookup (r : Registry) (extension : String) : Option Style :=
  r.entries.lookup extension

def lookupPath (r : Registry) (p : Path) : Option (String × Style) :=
  p.extension?.bind fun extension => (r.lookup extension).map (extension, ·)

def extensions (r : Registry) : List String :=
  r.entries.map (·.1)

/-- For each extension, the pattern of the file names that end in it. -/
def patterns (r : Registry) : List String :=
  r.extensions.map ("*." ++ ·)

def size (r : Registry) : Nat :=
  r.entries.length

def isEmpty (r : Registry) : Bool :=
  r.entries.isEmpty

end Registry
end LicenseHeader
