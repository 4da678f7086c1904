import LicenseHeader.FileTree.Edit
import LicenseHeader.Proofs.Encoding
import LicenseHeader.Proofs.Paths
import LicenseHeader.Scan.Candidates

/-! Where paths lead: it hangs on the shape of the tree alone, and the path of a location below a
directory leads to that location. Reading and writing in terms of where the path leads. -/
namespace LicenseHeader.Node

theorem isDirAt_iff {n : Node} {loc : Location} :
    n.isDirAt loc = true ↔ ∃ names, n.kindAt? loc = some (.dir names) := by
  rw [isDirAt, kindAt?]
  cases n.at? loc with
  | none => simp
  | some m => cases m <;> simp [isDir, kind]

theorem isDirAt_congr {m n : Node} (h : m.SameShape n) (loc : Location) :
    m.isDirAt loc = n.isDirAt loc := by
  rw [Bool.eq_iff_iff, isDirAt_iff, isDirAt_iff, h loc]

theorem advance_name (root : Node) (loc : Location) (s : String) (rest : List Component) :
    root.advance loc (.name s :: rest) =
      if root.isDirAt loc then
        match root.kindAt? (loc ++ [s]) with
        | none => if rest.isEmpty then .ok (.arrived (.vacant loc s)) else .error .notFound
        | some (.link target) => .ok (.link loc target rest)
        | some _ => root.advance (loc ++ [s]) rest
      else .error .notDirectory := by
  rw [advance, kindAt?]
  cases root.at? (loc ++ [s]) with
  | none => rfl
  | some m => cases m <;> rfl

theorem advance_congr {m n : Node} (h : m.SameShape n) (loc : Location) (cs : List Component) :
    m.advance loc cs = n.advance loc cs := by
  induction cs generalizing loc with
  | nil => rfl
  | cons c cs ih =>
    cases c with
    | root => exact ih []
    | here => rw [advance, advance, isDirAt_congr h, ih]
    | parent => rw [advance, advance, isDirAt_congr h, ih]
    | name s => rw [advance_name, advance_name, isDirAt_congr h, h, ih]

theorem follow_congr {m n : Node} (h : m.SameShape n) (needsDir : Bool) (links : Nat)
    (loc : Location) (cs : List Component) :
    m.follow needsDir links loc cs = n.follow needsDir links loc cs := by
  induction links generalizing needsDir loc cs with
  | zero => rw [follow, follow, advance_congr h]
  | succ links ih =>
    rw [follow, follow, advance_congr h]
    simp only [ih]

/-- Components one after another: the later ones start where the earlier ones arrive, or wait
behind the link that these lead to. -/
private theorem advance_append {more : List Component} (hne : more ≠ []) (root : Node)
    (loc : Location) (cs : List Component) :
    root.advance loc (cs ++ more) = (root.advance loc cs).bind fun
      | .arrived (.existing r) => root.advance r more
      | .arrived (.vacant ..) => .error .notFound
      | .link parent target rest => .ok (.link parent target (rest ++ more)) := by
  induction cs generalizing loc with
  | nil => rfl
  | cons c cs ih =>
    cases c with
    | root => exact ih []
    | here =>
      rw [List.cons_append, advance, advance, ih]
      split <;> rfl
    | parent =>
      rw [List.cons_append, advance, advance, ih]
      split <;> rfl
    | name s =>
      rw [List.cons_append, advance_name, advance_name, ih]
      split
      · cases root.kindAt? (loc ++ [s]) with
        | none =>
          cases cs <;> simp [hne, Except.bind]
        | some k => cases k <;> rfl
      · rfl

/-- Names lead below a directory to whatever is there, if that is no link. -/
theorem advance_names {root : Node} {r below : Location} {k : Kind}
    (h : root.kindAt? (r ++ below) = some k) (hlink : ∀ target, k ≠ .link target) :
    root.advance r (below.map .name) = .ok (.arrived (.existing (r ++ below))) := by
  induction below generalizing r with
  | nil => simp [advance]
  | cons s rest ih =>
    have hdir := isDirAt_iff.mpr ((exists_dir_of_kindAt? h).imp fun _ h => h.1)
    have hsplit : r ++ s :: rest = (r ++ [s]) ++ rest := by simp
    rw [hsplit] at h ⊢
    rw [List.map_cons, advance_name, if_pos hdir]
    cases rest with
    | nil =>
      rw [List.append_nil] at h
      rw [h]
      cases k with
      | link target => exact absurd rfl (hlink target)
      | file => exact ih (by simpa using h)
      | dir names => exact ih (by simpa using h)
    | cons t rest =>
      obtain ⟨names, hnames, -⟩ := exists_dir_of_kindAt? h
      rw [hnames]
      exact ih h

/-- They lead to a vacant name, if the last directory does not have the last of them. -/
theorem advance_names_vacant {root : Node} {r dir : Location} {names : List String}
    {name : String} (hdir : root.kindAt? (r ++ dir) = some (.dir names))
    (hnone : root.kindAt? (r ++ dir ++ [name]) = none) :
    root.advance r ((dir ++ [name]).map .name) = .ok (.arrived (.vacant (r ++ dir) name)) := by
  rw [List.map_append, advance_append (by simp), advance_names hdir (by simp)]
  simp only [Except.bind, List.map_singleton]
  rw [advance_name, if_pos (isDirAt_iff.mpr ⟨names, hdir⟩), hnone]
  rfl

theorem follow_of_arrived {root : Node} {loc : Location} {cs : List Component} {target : Target}
    (h : root.advance loc cs = .ok (.arrived target)) (needsDir : Bool) (links : Nat) :
    root.follow needsDir links loc cs = .ok (target, needsDir) := by
  rw [follow, h]

/-- How a path leads somewhere: at once, or through a link and from there on. -/
theorem follow_eq_ok {root : Node} {needsDir needsDir' : Bool} {links : Nat} {loc : Location}
    {cs : List Component} {target : Target}
    (h : root.follow needsDir links loc cs = .ok (target, needsDir')) :
    (root.advance loc cs = .ok (.arrived target) ∧ needsDir' = needsDir) ∨
    ∃ links' parent via rest, links = links' + 1 ∧ via.text ≠ "" ∧
      root.advance loc cs = .ok (.link parent via rest) ∧
      root.follow (needsDir || (rest.isEmpty && via.namesDirectory)) links' parent
        (via.components ++ rest) = .ok (target, needsDir') := by
  rw [follow] at h
  split at h
  · cases h
  · next hadv =>
    obtain ⟨rfl, rfl⟩ := Prod.mk.inj (Except.ok.inj h)
    exact .inl ⟨hadv, rfl⟩
  · next parent via rest hadv =>
    cases links with
    | zero => cases h
    | succ links =>
      simp only at h
      split at h
      · cases h
      · next hvia => exact .inr ⟨links, parent, via, rest, rfl, by simpa using hvia, hadv, h⟩

theorem follow_of_link {root : Node} {loc parent : Location} {cs rest : List Component}
    {via : Path} (h : root.advance loc cs = .ok (.link parent via rest)) (hvia : via.text ≠ "")
    (needsDir : Bool) (links : Nat) :
    root.follow needsDir (links + 1) loc cs =
      root.follow (needsDir || (rest.isEmpty && via.namesDirectory)) links parent
        (via.components ++ rest) := by
  rw [follow, h]
  simp [hvia]

/-- Components after a path lead on from where the path leads, through the same links. -/
theorem follow_append {root : Node} {needsDir needsDir' : Bool} {links : Nat}
    {loc r : Location} {cs more : List Component} {target : Target}
    (h : root.follow needsDir links loc cs = .ok (.existing r, needsDir')) (hne : more ≠ [])
    (hmore : root.advance r more = .ok (.arrived target)) (d : Bool) :
    root.follow d links loc (cs ++ more) = .ok (target, d) := by
  have hon {loc : Location} {cs : List Component}
      (hadv : root.advance loc cs = .ok (.arrived (.existing r))) :
      root.advance loc (cs ++ more) = .ok (.arrived target) := by
    rw [advance_append hne, hadv]
    exact hmore
  induction links generalizing needsDir loc cs with
  | zero =>
    rcases follow_eq_ok h with ⟨hadv, -⟩ | ⟨links', -, -, -, hlinks, -⟩
    · exact follow_of_arrived (hon hadv) d _
    · cases hlinks
  | succ links ih =>
    rcases follow_eq_ok h with ⟨hadv, -⟩ | ⟨links', parent, via, rest, hlinks, hvia, hadv, hrest⟩
    · exact follow_of_arrived (hon hadv) d _
    · obtain rfl : links = links' := Nat.succ.inj hlinks
      have hadv' : root.advance loc (cs ++ more) = .ok (.link parent via (rest ++ more)) := by
        rw [advance_append hne, hadv, Except.bind]
      -- with components to come, the link itself need not lead to a directory
      have hflag : (rest ++ more).isEmpty = false := by simp [hne]
      rw [follow_of_link hadv' hvia, hflag, Bool.false_and, Bool.or_false, ← List.append_assoc]
      exact ih hrest

/-- What has to be a directory still has to be one behind a link. -/
theorem follow_needsDir {root : Node} {links : Nat} {loc : Location} {cs : List Component}
    {target : Target} {needsDir : Bool}
    (h : root.follow true links loc cs = .ok (target, needsDir)) : needsDir = true := by
  induction links generalizing loc cs with
  | zero =>
    rcases follow_eq_ok h with ⟨-, hd⟩ | ⟨_, -, -, -, hlinks, -⟩
    · exact hd
    · cases hlinks
  | succ links ih =>
    rcases follow_eq_ok h with ⟨-, hd⟩ | ⟨links', parent, via, rest, hlinks, -, -, hrest⟩
    · exact hd
    · obtain rfl : links = links' := Nat.succ.inj hlinks
      rw [Bool.true_or] at hrest
      exact ih hrest

end LicenseHeader.Node

namespace LicenseHeader.Scan

variable {p : Path} {below : Location}

@[simp] theorem pathBelow_nil (p : Path) : pathBelow p [] = p := rfl

@[simp] theorem pathBelow_cons (p : Path) (name : String) (below : Location) :
    pathBelow p (name :: below) = pathBelow (p.join ⟨name⟩) below := rfl

theorem pathBelow_concat (p : Path) (below : Location) (name : String) :
    pathBelow p (below ++ [name]) = (pathBelow p below).join ⟨name⟩ := by
  rw [pathBelow, List.foldl_append]
  rfl

theorem components_pathBelow (h : ∀ name ∈ below, IsName name) :
    (pathBelow p below).components = p.components ++ below.map .name := by
  induction below generalizing p with
  | nil => simp
  | cons name below ih =>
    rw [List.forall_mem_cons] at h
    rw [pathBelow_cons, ih h.2, Path.components_join p h.1]
    simp

theorem pathBelow_inj {below' : Location} (h : ∀ name ∈ below, IsName name)
    (h' : ∀ name ∈ below', IsName name) : pathBelow p below = pathBelow p below' ↔
      below = below' := by
  refine ⟨fun heq => ?_, fun heq => heq ▸ rfl⟩
  have hcomponents := congrArg Path.components heq
  rw [components_pathBelow h, components_pathBelow h', List.append_cancel_left_eq] at hcomponents
  exact (List.map_inj_right fun _ _ => Component.name.inj).mp hcomponents

theorem namesDirectory_pathBelow (h : ∀ name ∈ below, IsName name) (hne : below ≠ []) :
    (pathBelow p below).namesDirectory = false := by
  induction below generalizing p with
  | nil => exact absurd rfl hne
  | cons name below ih =>
    rw [List.forall_mem_cons] at h
    cases below with
    | nil => exact Path.namesDirectory_join p h.1
    | cons next below => exact ih h.2 (List.cons_ne_nil next below)

theorem pathBelow_ne_empty (h : ∀ name ∈ below, IsName name) (hp : p.text ≠ "") :
    (pathBelow p below).text ≠ "" := by
  induction below generalizing p with
  | nil => exact hp
  | cons name below ih =>
    rw [List.forall_mem_cons] at h
    exact ih h.2 (Path.join_ne_empty p h.1.isSegment)

theorem nul_mem_pathBelow (h : ∀ name ∈ below, IsName name) :
    '\x00' ∈ (pathBelow p below).text.toList ↔ '\x00' ∈ p.text.toList := by
  induction below generalizing p with
  | nil => rfl
  | cons name below ih =>
    rw [List.forall_mem_cons] at h
    rw [pathBelow_cons, ih h.2, Path.nul_mem_join p h.1]

theorem isAbsolute_pathBelow (h : ∀ name ∈ below, IsName name) (hp : p.text ≠ "") :
    (pathBelow p below).isAbsolute = p.isAbsolute := by
  induction below generalizing p with
  | nil => rfl
  | cons name below ih =>
    rw [List.forall_mem_cons] at h
    rw [pathBelow_cons, ih h.2 (Path.join_ne_empty p h.1.isSegment),
      Path.isAbsolute_join hp (Path.not_isAbsolute_segment h.1.isSegment)]

end LicenseHeader.Scan

namespace LicenseHeader.FileSystem

/-- Whether two file systems differ in nothing but the contents of files. -/
structure SameShape (fs fs' : FileSystem) : Prop where
  root : fs.root.SameShape fs'.root
  cwd : fs.cwd = fs'.cwd

def putText (fs : FileSystem) (loc : Location) (text : String) : FileSystem :=
  { fs with root := fs.root.put loc (.file text.toUTF8) }

/-- Whether a path leads to the file at a location. -/
def LeadsTo (fs : FileSystem) (p : Path) (loc : Location) : Prop :=
  fs.locate p = .ok (.existing loc, false)

variable {fs fs' : FileSystem} {p : Path} {loc : Location} {text : String}

theorem SameShape.refl (fs : FileSystem) : fs.SameShape fs := ⟨.refl _, rfl⟩

theorem SameShape.symm (h : fs.SameShape fs') : fs'.SameShape fs := ⟨h.root.symm, h.cwd.symm⟩

theorem SameShape.trans {fs'' : FileSystem} (h : fs.SameShape fs') (h' : fs'.SameShape fs'') :
    fs.SameShape fs'' := ⟨h.root.trans h'.root, h.cwd.trans h'.cwd⟩

theorem locate_congr (h : fs.SameShape fs') (p : Path) : fs.locate p = fs'.locate p := by
  rw [locate, locate, h.cwd, Node.follow_congr h.root]

private theorem locate_eq (h : p.text ≠ "") (hnul : '\x00' ∉ p.text.toList) :
    fs.locate p = fs.root.follow p.namesDirectory maxLinks []
      ((if p.isAbsolute then [] else fs.cwd.components) ++ p.components) := by
  rw [locate, if_neg (by simpa using h), if_neg (by simpa using hnul)]

private theorem locate_eq_ok {target : Target × Bool} (h : fs.locate p = .ok target) :
    p.text ≠ "" ∧ '\x00' ∉ p.text.toList := by
  rw [locate] at h
  split at h
  · cases h
  · next hp =>
    split at h
    · cases h
    · next hnul => exact ⟨by simpa using hp, by simpa using hnul⟩

/-- Names after the path of a directory lead to where they lead from there. -/
private theorem locate_pathBelow {r below : Location} {needsDir : Bool} {target : Target}
    (hnames : ∀ name ∈ below, IsName name) (h : fs.locate p = .ok (.existing r, needsDir))
    (hne : below ≠ []) (hbelow : fs.root.advance r (below.map .name) = .ok (.arrived target)) :
    fs.locate (Scan.pathBelow p below) = .ok (target, false) := by
  obtain ⟨hp, hnul⟩ := locate_eq_ok h
  rw [locate_eq hp hnul] at h
  rw [locate_eq (Scan.pathBelow_ne_empty hnames hp)
    (mt (Scan.nul_mem_pathBelow hnames).mp hnul), Scan.namesDirectory_pathBelow hnames hne,
    Scan.isAbsolute_pathBelow hnames hp, Scan.components_pathBelow hnames, ← List.append_assoc]
  exact Node.follow_append h (by simpa using hne) hbelow false

/-- The path of a location below a directory leads there, unless to a link. -/
theorem leadsTo_pathBelow {r below : Location} {needsDir : Bool} {k : Kind}
    (tree : fs.root.WellFormed) (h : fs.locate p = .ok (.existing r, needsDir))
    (hne : below ≠ []) (hk : fs.root.kindAt? (r ++ below) = some k)
    (hlink : ∀ target, k ≠ .link target) : fs.LeadsTo (Scan.pathBelow p below) (r ++ below) :=
  locate_pathBelow (tree.isName hk) h hne (Node.advance_names hk hlink)

/-- The path of a name that a directory does not have leads to nothing. -/
theorem not_leadsTo_pathBelow {r dir : Location} {name : String} {needsDir : Bool}
    {names : List String} (tree : fs.root.WellFormed)
    (h : fs.locate p = .ok (.existing r, needsDir)) (hname : IsName name)
    (hdir : fs.root.kindAt? (r ++ dir) = some (.dir names))
    (hnone : fs.root.kindAt? (r ++ dir ++ [name]) = none) (loc : Location) :
    ¬ fs.LeadsTo (Scan.pathBelow p (dir ++ [name])) loc := by
  have hnames : ∀ s ∈ dir ++ [name], IsName s := by
    simpa [or_imp, forall_and, hname] using tree.isName hdir
  have hvacant := locate_pathBelow hnames h (by simp) (Node.advance_names_vacant hdir hnone)
  rw [LeadsTo, hvacant]
  rintro ⟨⟩

theorem node_eq_ok {n : Node} : fs.node p = .ok n ↔
    ∃ loc needsDir, fs.locate p = .ok (.existing loc, needsDir) ∧ fs.root.at? loc = some n ∧
      (needsDir = true → n.isDir = true) := by
  rw [node]
  cases fs.locate p with
  | error e => simp [bind, Except.bind]
  | ok target =>
    obtain ⟨target, needsDir⟩ := target
    cases target with
    | vacant parent name => simp [bind, Except.bind]
    | existing loc =>
      have hone : (∃ loc' needsDir', (Except.ok (.existing loc, needsDir) :
            Except FileError (Target × Bool)) = .ok (.existing loc', needsDir') ∧
          fs.root.at? loc' = some n ∧ (needsDir' = true → n.isDir = true)) ↔
          fs.root.at? loc = some n ∧ (needsDir = true → n.isDir = true) := by
        constructor
        · rintro ⟨loc', needsDir', heq, h⟩
          cases heq
          exact h
        · exact fun h => ⟨loc, needsDir, rfl, h⟩
      rw [hone]
      simp only [bind, Except.bind]
      cases fs.root.at? loc with
      | none => simp
      | some m => cases needsDir <;> cases hdir : m.isDir <;> simp <;> grind

theorem readBytes_eq_ok {content : ByteArray} : fs.readBytes p = .ok content ↔
    ∃ loc, fs.LeadsTo p loc ∧ fs.root.content? loc = some content := by
  rw [readBytes]
  constructor
  · intro h
    cases hn : fs.node p with
    | error e => simp [hn, bind, Except.bind] at h
    | ok n =>
      obtain ⟨loc, needsDir, hloc, hat, hdir⟩ := node_eq_ok.mp hn
      cases n with
      | link target => simp [hn, bind, Except.bind] at h
      | dir entries => simp [hn, bind, Except.bind] at h
      | file b =>
        obtain rfl : b = content := by simpa [hn, bind, Except.bind] using h
        have hflag : needsDir = false := by simpa [Node.isDir] using hdir
        subst hflag
        exact ⟨loc, hloc, Node.content?_eq_some.mpr hat⟩
  · rintro ⟨loc, hloc, hc⟩
    have hn : fs.node p = .ok (.file content) :=
      node_eq_ok.mpr ⟨loc, false, hloc, Node.content?_eq_some.mp hc, by simp⟩
    simp [hn, bind, Except.bind]

theorem readText_eq_ok : fs.readText p = .ok text ↔
    ∃ loc, fs.LeadsTo p loc ∧ fs.root.content? loc = some text.toUTF8 := by
  have hread : fs.readText p = .ok text ↔ fs.readBytes p = .ok text.toUTF8 := by
    rw [readText]
    cases fs.readBytes p with
    | error e => simp [bind, Except.bind]
    | ok content =>
      simp only [bind, Except.bind]
      cases hd : Text.decode? content with
      | none =>
        constructor
        · intro h
          cases h
        · intro h
          rw [Except.ok.inj h, Text.decode?_toUTF8] at hd
          cases hd
      | some s =>
        rw [Text.decode?_eq_some] at hd
        subst hd
        simp [String.toByteArray_inj]
  rw [hread, readBytes_eq_ok]

theorem LeadsTo.endsInSlash (h : fs.LeadsTo p loc) : p.endsInSlash = false := by
  cases hslash : p.endsInSlash with
  | false => rfl
  | true =>
    obtain ⟨hp, hnul⟩ := locate_eq_ok h
    rw [LeadsTo, locate_eq hp hnul, Path.namesDirectory_of_endsInSlash hslash] at h
    cases Node.follow_needsDir h

/-- A file that could be read can be written. -/
theorem writeText_of_leadsTo {content : ByteArray} (h : fs.LeadsTo p loc)
    (hc : fs.root.content? loc = some content) (text : String) :
    fs.writeText p text = .ok (fs.putText loc text) := by
  have hdir : fs.root.isDirAt loc = false := by
    rw [Node.isDirAt, Node.content?_eq_some.mp hc]
    rfl
  rw [writeText, writeBytes, show fs.locate p = _ from h]
  simp [bind, Except.bind, h.endsInSlash, hdir, putText]

theorem sameShape_putText {content : ByteArray} (hc : fs.root.content? loc = some content)
    (text : String) : (fs.putText loc text).SameShape fs :=
  ⟨(Node.put_file hc text.toUTF8).1, rfl⟩

theorem content?_putText {content : ByteArray} (hc : fs.root.content? loc = some content)
    (text : String) (loc' : Location) : (fs.putText loc text).root.content? loc' =
      if loc' = loc then some text.toUTF8 else fs.root.content? loc' :=
  (Node.put_file hc text.toUTF8).2 loc'

theorem putText_comm {loc' : Location} {content content' : ByteArray}
    (hc : fs.root.content? loc = some content) (hc' : fs.root.content? loc' = some content')
    (hne : loc ≠ loc') (text text' : String) :
    (fs.putText loc text).putText loc' text' = (fs.putText loc' text').putText loc text :=
  congrArg (FileSystem.mk · fs.cwd) (Node.put_comm hc hc' hne _ _)

end LicenseHeader.FileSystem
