import LicenseHeader.FileTree.Node
import LicenseHeader.Proofs.Lookup

/-! File trees up to what their files hold: the shape of a tree, the contents of its files, and
what putting a file in the place of another one does to both. -/
namespace LicenseHeader

inductive Kind
  | file
  | link (target : Path)
  | dir (names : List String)

/-- A name that an entry of a directory can have. -/
structure IsName (name : String) : Prop where
  nonempty : name ≠ ""
  not_here : name ≠ "."
  not_parent : name ≠ ".."
  no_slash : '/' ∉ name.toList
  no_nul : '\x00' ∉ name.toList

instance (name : String) : Decidable (IsName name) :=
  decidable_of_iff (name ≠ "" ∧ name ≠ "." ∧ name ≠ ".." ∧ '/' ∉ name.toList ∧
      '\x00' ∉ name.toList)
    ⟨fun h => ⟨h.1, h.2.1, h.2.2.1, h.2.2.2.1, h.2.2.2.2⟩,
      fun h => ⟨h.nonempty, h.not_here, h.not_parent, h.no_slash, h.no_nul⟩⟩

namespace Node

def kind : Node → Kind
  | file _ => .file
  | link target => .link target
  | dir entries => .dir (entries.map (·.1))

def kindAt? (n : Node) (loc : Location) : Option Kind := (n.at? loc).map kind

/-- The content of the file at a location. Links on the way are not followed. -/
def content? (n : Node) (loc : Location) : Option ByteArray :=
  match n.at? loc with
  | some (file content) => some content
  | _ => none

/-- Whether two trees differ in nothing but the contents of their files. -/
def SameShape (m n : Node) : Prop := ∀ loc, m.kindAt? loc = n.kindAt? loc

/-- Every directory has its names once each, and all of them are names. File systems promise
this. -/
def WellFormed (n : Node) : Prop :=
  ∀ loc names, n.kindAt? loc = some (.dir names) → names.Nodup ∧ ∀ name ∈ names, IsName name

/-- Induction on trees: a directory from its entries. -/
theorem induct {P : Node → Prop} (file : ∀ content, P (file content))
    (link : ∀ target, P (link target))
    (dir : ∀ entries, (∀ e ∈ entries, P e.2) → P (dir entries)) (n : Node) : P n :=
  @Node.rec P (fun entries => ∀ e ∈ entries, P e.2) (fun e => P e.2) file link dir (by simp)
    (fun _ _ he hes => List.forall_mem_cons.mpr ⟨he, hes⟩) (fun _ _ h => h) n

theorem isDir_iff {n : Node} : n.isDir = true ↔ ∃ entries, n = dir entries := by
  cases n with
  | file content => simp [isDir]
  | link target => simp [isDir]
  | dir entries => simp [isDir]

theorem isDir_congr {m n : Node} (h : m.kind = n.kind) : m.isDir = n.isDir := by
  cases m <;> cases n <;> first | rfl | cases h

theorem at?_append (n : Node) (a b : Location) : n.at? (a ++ b) = (n.at? a).bind (·.at? b) := by
  induction a generalizing n with
  | nil => rfl
  | cons name a ih =>
    rw [List.cons_append, at?, at?]
    cases n.child? name with
    | none => rfl
    | some c => exact ih c

theorem at?_dir_cons (entries : List (String × Node)) (name : String) (rest : Location) :
    (dir entries).at? (name :: rest) = (entries.lookup name).bind (·.at? rest) := rfl

theorem content?_eq_some {n : Node} {loc : Location} {content : ByteArray} :
    n.content? loc = some content ↔ n.at? loc = some (file content) := by
  unfold content?
  split
  · next b hb => simp [hb]
  · next hb => simpa using fun h => hb content h

theorem kindAt?_of_content? {n : Node} {loc : Location} {content : ByteArray}
    (h : n.content? loc = some content) : n.kindAt? loc = some .file := by
  rw [kindAt?, content?_eq_some.mp h]
  rfl

/-- There is a file wherever a file has a content. -/
theorem exists_content?_iff {n : Node} {loc : Location} :
    (∃ content, n.content? loc = some content) ↔ n.kindAt? loc = some .file := by
  constructor
  · rintro ⟨content, h⟩
    exact kindAt?_of_content? h
  · intro h
    obtain ⟨m, hm, hk⟩ := Option.map_eq_some_iff.mp h
    cases m with
    | file content => exact ⟨content, content?_eq_some.mpr hm⟩
    | link target => cases hk
    | dir entries => cases hk

/-- Only directories lead further down, and only to the names they have. -/
theorem exists_dir_of_kindAt? {n : Node} {above rest : Location} {name : String} {k : Kind}
    (h : n.kindAt? (above ++ name :: rest) = some k) :
    ∃ names, n.kindAt? above = some (.dir names) ∧ name ∈ names := by
  obtain ⟨m, hm, -⟩ := Option.map_eq_some_iff.mp h
  rw [at?_append, Option.bind_eq_some_iff] at hm
  obtain ⟨d, hd, hm⟩ := hm
  cases d with
  | file content => cases hm
  | link target => cases hm
  | dir entries =>
    rw [at?_dir_cons, Option.bind_eq_some_iff] at hm
    obtain ⟨c, hc, -⟩ := hm
    exact ⟨entries.map (·.1), by rw [kindAt?, hd]; rfl,
      List.mem_map_of_mem (mem_of_lookup_eq_some hc)⟩

theorem SameShape.refl (n : Node) : n.SameShape n := fun _ => rfl

theorem SameShape.symm {m n : Node} (h : m.SameShape n) : n.SameShape m := fun loc => (h loc).symm

theorem SameShape.trans {m n k : Node} (h : m.SameShape n) (h' : n.SameShape k) :
    m.SameShape k := fun loc => (h loc).trans (h' loc)

theorem WellFormed.of_sameShape {m n : Node} (h : m.WellFormed) (hs : m.SameShape n) :
    n.WellFormed := fun loc names hn => h loc names ((hs loc).trans hn)

theorem WellFormed.isName {n : Node} (h : n.WellFormed) {above below : Location} {k : Kind}
    (hk : n.kindAt? (above ++ below) = some k) : ∀ name ∈ below, IsName name := by
  intro name hname
  obtain ⟨before, after, rfl⟩ := List.append_of_mem hname
  rw [← List.append_assoc] at hk
  obtain ⟨names, hnames, hmem⟩ := exists_dir_of_kindAt? hk
  exact (h _ names hnames).2 name hmem

theorem WellFormed.isName_of_kindAt? {n : Node} (h : n.WellFormed) {below : Location} {k : Kind}
    (hk : n.kindAt? below = some k) : ∀ name ∈ below, IsName name := by
  have hk' : n.kindAt? ([] ++ below) = some k := hk
  exact h.isName hk'

theorem wellFormed_file (content : ByteArray) : (file content).WellFormed := by
  intro loc names h
  cases loc <;> cases h

theorem wellFormed_link (target : Path) : (link target).WellFormed := by
  intro loc names h
  cases loc <;> cases h

theorem wellFormed_dir {entries : List (String × Node)} (hnodup : (entries.map (·.1)).Nodup)
    (hentry : ∀ e ∈ entries, IsName e.1 ∧ e.2.WellFormed) : (dir entries).WellFormed := by
  intro loc names h
  cases loc with
  | nil =>
    obtain rfl := Kind.dir.inj (Option.some.inj h)
    exact ⟨hnodup, fun name hname => by
      obtain ⟨e, he, rfl⟩ := List.mem_map.mp hname
      exact (hentry e he).1⟩
  | cons name rest =>
    rw [kindAt?, at?_dir_cons] at h
    cases hc : entries.lookup name with
    | none =>
      rw [hc] at h
      cases h
    | some c =>
      rw [hc] at h
      exact (hentry _ (mem_of_lookup_eq_some hc)).2 rest names h

theorem WellFormed.child {entries : List (String × Node)} (h : (dir entries).WellFormed) :
    (entries.map (·.1)).Nodup ∧ ∀ e ∈ entries, IsName e.1 ∧ e.2.WellFormed := by
  obtain ⟨hnodup, hnames⟩ := h [] _ rfl
  refine ⟨hnodup, fun e he => ⟨hnames e.1 (List.mem_map_of_mem he), fun loc names hk => ?_⟩⟩
  apply h (e.1 :: loc) names
  rw [kindAt?, at?_dir_cons, lookup_eq_some_of_mem hnodup he]
  exact hk

mutual

def isWellFormed : Node → Bool
  | dir entries => decide (entries.map (·.1)).Nodup && entriesWellFormed entries
  | _ => true
termination_by structural n => n

def entriesWellFormed : List (String × Node) → Bool
  | [] => true
  | (name, n) :: rest => decide (IsName name) && n.isWellFormed && entriesWellFormed rest
termination_by structural es => es

end

theorem entriesWellFormed_iff (entries : List (String × Node)) :
    entriesWellFormed entries = true ↔ ∀ e ∈ entries, IsName e.1 ∧ e.2.isWellFormed = true := by
  induction entries with
  | nil => simp [entriesWellFormed]
  | cons e entries ih => simp [entriesWellFormed, ih]

theorem isWellFormed_iff (n : Node) : n.isWellFormed = true ↔ n.WellFormed := by
  induction n using induct with
  | file content => exact ⟨fun _ => wellFormed_file content, fun _ => rfl⟩
  | link target => exact ⟨fun _ => wellFormed_link target, fun _ => rfl⟩
  | dir entries ih =>
    rw [isWellFormed, Bool.and_eq_true, decide_eq_true_iff, entriesWellFormed_iff]
    constructor
    · rintro ⟨hnodup, hentry⟩
      exact wellFormed_dir hnodup fun e he => ⟨(hentry e he).1, (ih e he).mp (hentry e he).2⟩
    · intro h
      obtain ⟨hnodup, hentry⟩ := h.child
      exact ⟨hnodup, fun e he => ⟨(hentry e he).1, (ih e he).mpr (hentry e he).2⟩⟩

instance (n : Node) : Decidable n.WellFormed :=
  decidable_of_iff _ n.isWellFormed_iff

section
variable {name name' : String} {c : Node} {entries : List (String × Node)}

theorem map_fst_alterEntry (name : String) (f : Node → Node) (entries : List (String × Node)) :
    (alterEntry name (·.map f) entries).map (·.1) = entries.map (·.1) := by
  induction entries with
  | nil => rfl
  | cons e entries ih =>
    by_cases h : e.1 = name
    · simp [alterEntry, h]
    · simp [alterEntry, h, ih]

theorem lookup_alterEntry (name name' : String) (f : Node → Node)
    (entries : List (String × Node)) :
    (alterEntry name (·.map f) entries).lookup name' =
      if name' = name then (entries.lookup name').map f else entries.lookup name' := by
  induction entries with
  | nil => simp [alterEntry]
  | cons e entries ih =>
    by_cases h : e.1 = name
    · by_cases h' : name' = name
      · simp [alterEntry, lookup_cons_eq_ite, h, h']
      · simp [alterEntry, lookup_cons_eq_ite, h, h']
    · by_cases h' : name' = e.1
      · simp [alterEntry, lookup_cons_eq_ite, h, h']
      · simp [alterEntry, lookup_cons_eq_ite, h, h', ih]

theorem alterEntry_congr {f g : Option Node → Option Node} (h : entries.lookup name = some c)
    (hfg : f (some c) = g (some c)) : alterEntry name f entries = alterEntry name g entries := by
  induction entries with
  | nil => cases h
  | cons e entries ih =>
    rw [lookup_cons_eq_ite] at h
    rw [alterEntry, alterEntry]
    by_cases heq : e.1 = name
    · rw [if_pos heq.symm] at h
      rw [if_pos heq, if_pos heq, Option.some.inj h, hfg]
    · rw [if_neg (Ne.symm heq)] at h
      rw [if_neg heq, if_neg heq, ih h]

theorem alterEntry_alterEntry (name : String) (f g : Node → Node)
    (entries : List (String × Node)) :
    alterEntry name (·.map g) (alterEntry name (·.map f) entries) =
      alterEntry name (·.map fun n => g (f n)) entries := by
  induction entries with
  | nil => rfl
  | cons e entries ih =>
    by_cases h : e.1 = name
    · simp [alterEntry, h]
    · simp [alterEntry, h, ih]

/-- Entries of different names are altered independently of each other. -/
theorem alterEntry_comm (hne : name ≠ name') (f g : Node → Node)
    (entries : List (String × Node)) :
    alterEntry name' (·.map g) (alterEntry name (·.map f) entries) =
      alterEntry name (·.map f) (alterEntry name' (·.map g) entries) := by
  induction entries with
  | nil => rfl
  | cons e entries ih =>
    by_cases h : e.1 = name
    · simp [alterEntry, h, hne]
    · by_cases h' : e.1 = name'
      · simp [alterEntry, h', Ne.symm hne]
      · simp [alterEntry, h, h', ih]

/-- To put a node at or below a name that a directory has is to alter the entry of this name. -/
theorem put_dir_cons (h : entries.lookup name = some c) (rest : Location) (new : Node) :
    (dir entries).put (name :: rest) new =
      dir (alterEntry name (·.map (·.put rest new)) entries) := by
  cases rest with
  | nil => exact congrArg dir (alterEntry_congr h rfl)
  | cons next rest => rfl

theorem content?_dir_cons {rest : Location} {content : ByteArray} :
    (dir entries).content? (name :: rest) = some content ↔
      ∃ c, entries.lookup name = some c ∧ c.content? rest = some content := by
  simp only [content?_eq_some, at?_dir_cons, Option.bind_eq_some_iff]

end

/-- A file in the place of another one: the shape stays, and so does the content of every other
file. -/
theorem put_file {n : Node} {loc : Location} {old : ByteArray} (h : n.content? loc = some old)
    (new : ByteArray) : (n.put loc (file new)).SameShape n ∧
      ∀ loc', (n.put loc (file new)).content? loc' =
        if loc' = loc then some new else n.content? loc' := by
  induction loc generalizing n with
  | nil =>
    obtain rfl : n = file old := Option.some.inj (content?_eq_some.mp h)
    constructor
    · rintro (_ | ⟨name, rest⟩) <;> rfl
    · rintro (_ | ⟨name, rest⟩) <;> rfl
  | cons name rest ih =>
    cases n with
    | file b => cases h
    | link target => cases h
    | dir entries =>
      obtain ⟨c, hc, hrest⟩ := content?_dir_cons.mp h
      obtain ⟨hshape, hcontent⟩ := ih hrest
      rw [put_dir_cons hc]
      have hbelow (rest' : Location) :
          (dir (alterEntry name (·.map (·.put rest (file new))) entries)).at? (name :: rest') =
            (c.put rest (file new)).at? rest' := by
        rw [at?_dir_cons, lookup_alterEntry, if_pos rfl, hc, Option.map_some, Option.bind_some]
      have habove (rest' : Location) : (dir entries).at? (name :: rest') = c.at? rest' := by
        rw [at?_dir_cons, hc, Option.bind_some]
      have haside {name' : String} (hne : name' ≠ name) (rest' : Location) :
          (dir (alterEntry name (·.map (·.put rest (file new))) entries)).at? (name' :: rest') =
            (dir entries).at? (name' :: rest') := by
        rw [at?_dir_cons, at?_dir_cons, lookup_alterEntry, if_neg hne]
      constructor
      · rintro (_ | ⟨name', rest'⟩)
        · exact congrArg (some ∘ Kind.dir) (map_fst_alterEntry name _ entries)
        · by_cases hne : name' = name
          · subst name'
            rw [kindAt?, kindAt?, hbelow, habove]
            exact hshape rest'
          · rw [kindAt?, kindAt?, haside hne]
      · rintro (_ | ⟨name', rest'⟩)
        · rfl
        · by_cases hne : name' = name
          · subst name'
            have hput := hcontent rest'
            rw [content?, content?] at hput
            rw [content?, content?, hbelow, habove]
            simpa using hput
          · rw [content?, content?, haside hne, if_neg (by simp [hne])]

/-- Two files at different places come to be the same whichever is put in its place first. -/
theorem put_comm {n : Node} {loc loc' : Location} {old old' : ByteArray}
    (h : n.content? loc = some old) (h' : n.content? loc' = some old') (hne : loc ≠ loc')
    (new new' : Node) : (n.put loc new).put loc' new' = (n.put loc' new').put loc new := by
  induction loc generalizing n loc' with
  | nil =>
    obtain rfl : n = file old := Option.some.inj (content?_eq_some.mp h)
    cases loc' with
    | nil => exact absurd rfl hne
    | cons name' rest' => cases h'
  | cons name rest ih =>
    cases n with
    | file b => cases h
    | link target => cases h
    | dir entries =>
      cases loc' with
      | nil => cases h'
      | cons name' rest' =>
        obtain ⟨c, hc, hrest⟩ := content?_dir_cons.mp h
        obtain ⟨c', hc', hrest'⟩ := content?_dir_cons.mp h'
        by_cases heq : name = name'
        · subst heq
          obtain rfl : c = c' := Option.some.inj (hc.symm.trans hc')
          have hcomm := ih hrest hrest' fun h => hne (h ▸ rfl)
          have hput (rest : Location) (new : Node) :
              (alterEntry name (·.map (·.put rest new)) entries).lookup name =
                some (c.put rest new) := by
            rw [lookup_alterEntry, if_pos rfl, hc, Option.map_some]
          rw [put_dir_cons hc, put_dir_cons hc, put_dir_cons (hput rest new),
            put_dir_cons (hput rest' new'), alterEntry_alterEntry, alterEntry_alterEntry]
          exact congrArg dir (alterEntry_congr hc (congrArg some hcomm))
        · have haside :
              (alterEntry name (·.map (·.put rest new)) entries).lookup name' = some c' := by
            rw [lookup_alterEntry, if_neg (Ne.symm heq), hc']
          have haside' :
              (alterEntry name' (·.map (·.put rest' new')) entries).lookup name = some c := by
            rw [lookup_alterEntry, if_neg heq, hc]
          rw [put_dir_cons hc, put_dir_cons hc', put_dir_cons haside, put_dir_cons haside',
            alterEntry_comm heq]

end Node
end LicenseHeader
