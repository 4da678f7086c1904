import LicenseHeader.Proofs.Absolute
import LicenseHeader.Proofs.Lossless

/-! The name that a path ends in, read off its text, and what a registry looks a path up as. -/
namespace LicenseHeader

namespace Path

/-- What can stand after the last name of a path: slashes, with or without a dot behind them. -/
inductive Idle : List Char → Prop
  | nil : Idle []
  | slash {tail : List Char} (h : Idle tail) : Idle (tail ++ ['/'])
  | dot {tail : List Char} (h : Idle tail) : Idle (tail ++ ['/', '.'])

/-- Whether a text ends in a segment: before it there is nothing, or a text with a slash at its end,
and what is after it says nothing. -/
def EndsIn (text segment : List Char) : Prop :=
  ∃ dir tail, text = dir ++ segment ++ tail ∧ (dir = [] ∨ dir.getLast? = some '/') ∧ Idle tail

variable {p : Path} {name : String} {cs segment : List Char} {before after : List (List Char)}
  {c : Component}

theorem segmentComponent?_eq_name (h : '/' ∉ segment) :
    segmentComponent? segment = some (.name name) ↔
      segment = name.toList ∧ (Component.name name).IsStep := by
  constructor
  · intro hname
    refine ⟨?_, isStep_of_segmentComponent? hname h⟩
    rw [segmentComponent?] at hname
    split at hname
    · cases hname
    · split at hname
      · cases hname
      · obtain rfl := Component.name.inj (Option.some.inj hname)
        exact String.toList_ofList.symm
  · rintro ⟨rfl, hstep⟩
    have htext := segmentComponent?_text hstep
    exact htext

theorem splitOn_slash_cons (cs : List Char) : ('/' :: cs).splitOn '/' = [] :: cs.splitOn '/' :=
  List.splitOn_append_cons_self [] cs

theorem splitOn_dot_slash (cs : List Char) :
    ('.' :: '/' :: cs).splitOn '/' = ['.'] :: cs.splitOn '/' :=
  List.splitOn_append_cons_self ['.'] cs

theorem filterMap_parts (cs : List Char) :
    (parts cs).2.filterMap segmentComponent? = (cs.splitOn '/').filterMap segmentComponent? := by
  unfold parts
  split
  · next rest => rw [splitOn_slash_cons, List.filterMap_cons_none rfl]
  · rfl
  · next rest =>
    rw [splitOn_dot_slash, List.filterMap_cons_none rfl, List.filterMap_cons_none rfl]
  · rfl

theorem fileName?_eq_some_iff_getLast? : p.fileName? = some name ↔
    ((p.text.toList.splitOn '/').filterMap segmentComponent?).getLast? = some (.name name) := by
  have hlast : p.fileName? = some name ↔ p.components.getLast? = some (.name name) := by
    rw [fileName?]
    split <;> simp_all
  have hstart : (parts p.text.toList).1.toList.getLast? ≠ some (.name name) := by
    intro h
    rcases parts_fst (Option.mem_toList.mp (List.mem_of_getLast? h)) with heq | heq <;> cases heq
  rw [hlast, components, ← filterMap_parts]
  simp only
  rw [List.getLast?_append, Option.or_eq_some_iff]
  exact or_iff_left fun h => hstart h.2

/-- The last component of some segments is that of the last one that says something. -/
theorem getLast?_filterMap_eq_some {segments : List (List Char)} :
    (segments.filterMap segmentComponent?).getLast? = some c ↔
      ∃ before segment after, segments = before ++ segment :: after ∧
        segmentComponent? segment = some c ∧ ∀ s ∈ after, isVoid s = true := by
  simp only [← segmentComponent?_eq_none]
  rw [List.getLast?_eq_some_iff]
  constructor
  · rintro ⟨cs, h⟩
    obtain ⟨front, rest, rfl, -, hrest⟩ := List.filterMap_eq_append_iff.mp h
    obtain ⟨void, segment, after, rfl, -, hc, hafter⟩ := List.filterMap_eq_cons_iff.mp hrest
    exact ⟨front ++ void, segment, after, by simp, hc, List.filterMap_eq_nil_iff.mp hafter⟩
  · rintro ⟨before, segment, after, rfl, hc, hafter⟩
    refine ⟨before.filterMap segmentComponent?, ?_⟩
    rw [List.filterMap_append, List.filterMap_cons_some hc, List.filterMap_eq_nil_iff.mpr hafter]

theorem exists_last_slash (h : '/' ∈ cs) :
    ∃ front last, cs = front ++ '/' :: last ∧ '/' ∉ last := by
  obtain ⟨after, before, hrev, hafter⟩ := List.eq_append_cons_of_mem (List.mem_reverse.mpr h)
  refine ⟨before.reverse, after.reverse, ?_, by simpa using hafter⟩
  rw [← List.reverse_reverse cs, hrev]
  simp

theorem endsIn_of_splitOn (h : cs.splitOn '/' = before ++ segment :: after)
    (hafter : ∀ s ∈ after, isVoid s = true) : EndsIn cs segment := by
  induction after using List.reverseRecOn generalizing cs with
  | nil =>
    by_cases hslash : '/' ∈ cs
    · obtain ⟨front, last, rfl, hlast⟩ := exists_last_slash hslash
      rw [splitOn_append_slash hlast] at h
      obtain ⟨-, heq⟩ := List.append_inj' h rfl
      obtain rfl : last = segment := (List.cons.inj heq).1
      exact ⟨front ++ ['/'], [], by simp, .inr (by simp), .nil⟩
    · rw [List.splitOn_eq_singleton hslash] at h
      obtain rfl : cs = segment := by simpa using congrArg List.getLast? h
      exact ⟨[], [], by simp, .inl rfl, .nil⟩
  | append_singleton after void ih =>
    obtain ⟨hbefore, hvoid⟩ := List.forall_mem_append.mp hafter
    have hslash : '/' ∈ cs := by
      -- there are at least two segments
      by_contra hnot
      rw [List.splitOn_eq_singleton hnot] at h
      have hlength := congrArg List.length h
      simp only [List.length_append, List.length_cons, List.length_nil] at hlength
      omega
    obtain ⟨front, last, rfl, hlast⟩ := exists_last_slash hslash
    rw [splitOn_append_slash hlast, ← List.cons_append, ← List.append_assoc] at h
    obtain ⟨hfront, heq⟩ := List.append_inj' h rfl
    obtain rfl : last = void := (List.cons.inj heq).1
    obtain ⟨dir, tail, rfl, hdir, htail⟩ := ih hfront hbefore
    have hlast : last = [] ∨ last = ['.'] := by simpa [isVoid] using hvoid
    rcases hlast with rfl | rfl
    · exact ⟨dir, tail ++ ['/'], by simp, hdir, htail.slash⟩
    · exact ⟨dir, tail ++ ['/', '.'], by simp, hdir, htail.dot⟩

theorem splitOn_of_endsIn (hslash : '/' ∉ segment) (h : EndsIn cs segment) :
    ∃ before after, cs.splitOn '/' = before ++ segment :: after ∧
      ∀ s ∈ after, isVoid s = true := by
  obtain ⟨dir, tail, rfl, hdir, htail⟩ := h
  induction htail with
  | nil =>
    rw [List.append_nil]
    rcases hdir with rfl | hdir
    · exact ⟨[], [], List.splitOn_eq_singleton hslash, by simp⟩
    · obtain ⟨front, rfl⟩ := List.getLast?_eq_some_iff.mp hdir
      refine ⟨front.splitOn '/', [], ?_, by simp⟩
      rw [List.append_assoc, List.singleton_append, splitOn_append_slash hslash]
  | @slash tail _ ih =>
    obtain ⟨before, after, hsplit, hafter⟩ := ih
    refine ⟨before, after ++ [[]], ?_, by simpa [or_imp, forall_and, isVoid] using hafter⟩
    rw [← List.append_assoc, splitOn_append_slash List.not_mem_nil, hsplit]
    simp
  | @dot tail _ ih =>
    obtain ⟨before, after, hsplit, hafter⟩ := ih
    refine ⟨before, after ++ [['.']], ?_, by simpa [or_imp, forall_and, isVoid] using hafter⟩
    rw [← List.append_assoc, splitOn_append_slash (by decide), hsplit]
    simp

/-- A path has a file name exactly if its text ends in it. -/
theorem fileName?_eq_some : p.fileName? = some name ↔
    (Component.name name).IsStep ∧ EndsIn p.text.toList name.toList := by
  rw [fileName?_eq_some_iff_getLast?, getLast?_filterMap_eq_some]
  constructor
  · rintro ⟨before, segment, after, hsplit, hc, hafter⟩
    have hmem : segment ∈ p.text.toList.splitOn '/' := by simp [hsplit]
    have hslash : '/' ∉ segment := Text.not_mem_of_mem_splitOn hmem
    obtain ⟨rfl, hstep⟩ := (segmentComponent?_eq_name hslash).mp hc
    exact ⟨hstep, endsIn_of_splitOn hsplit hafter⟩
  · rintro ⟨hstep, hends⟩
    obtain ⟨before, after, hsplit, hafter⟩ := splitOn_of_endsIn hstep.isSegment.no_slash hends
    exact ⟨before, _, after, hsplit, segmentComponent?_text hstep, hafter⟩

section
variable {dir stem extension : String}

theorem extension?_of_fileName? (h : p.fileName? = some (stem ++ "." ++ extension))
    (hstem : stem ≠ "") (hdot : '.' ∉ extension.toList) : p.extension? = some extension := by
  rw [extension?, h, Option.bind_some, nameExtension?_eq_some]
  exact ⟨stem.toList, by simpa using hstem, by simp, hdot⟩

theorem extension?_eq_some : p.extension? = some extension ↔
    ∃ stem ≠ "", p.fileName? = some (stem ++ "." ++ extension) ∧ '.' ∉ extension.toList := by
  constructor
  · intro h
    obtain ⟨name, hname, hext⟩ := Option.bind_eq_some_iff.mp h
    obtain ⟨stem, hstem, htext, hdot⟩ := nameExtension?_eq_some.mp hext
    obtain rfl : name = String.ofList stem ++ "." ++ extension := by
      rw [← String.toList_inj, htext]
      simp
    exact ⟨String.ofList stem, by simpa using hstem, hname, hdot⟩
  · rintro ⟨stem, hstem, hname, hdot⟩
    exact extension?_of_fileName? hname hstem hdot

theorem isStep_of_extension (hstem : stem ≠ "") (hslash : '/' ∉ stem.toList)
    (hext : extension ≠ "") (hslash' : '/' ∉ extension.toList) :
    (Component.name (stem ++ "." ++ extension)).IsStep := by
  have hlong : 2 < (stem ++ "." ++ extension).toList.length := by
    have hs := List.length_pos_of_ne_nil (mt String.toList_eq_nil_iff.mp hstem)
    have he := List.length_pos_of_ne_nil (mt String.toList_eq_nil_iff.mp hext)
    have hone : ".".toList.length = 1 := rfl
    simp only [String.toList_append, List.length_append]
    omega
  have hne {s : String} (hs : s.toList.length ≤ 2) : stem ++ "." ++ extension ≠ s := by
    rintro rfl
    omega
  exact ⟨⟨hne (by simp), hne (by simp), by simp [hslash, hslash']⟩, hne (by simp)⟩

theorem fileName?_under (dir : String) {name : String} (h : (Component.name name).IsStep) :
    (⟨dir ++ "/" ++ name⟩ : Path).fileName? = some name :=
  fileName?_eq_some.mpr ⟨h, (dir ++ "/").toList, [], by simp, .inr (by simp), .nil⟩

theorem fileName?_join (p : Path) {name : String} (h : (Component.name name).IsStep) :
    (p.join ⟨name⟩).fileName? = some name := by
  have hjoin := components_join_step p h
  rw [Component.text] at hjoin
  rw [fileName?, hjoin, List.getLast?_concat]

end

end Path

namespace Registry

variable {registry : Registry} {p : Path} {extension : String} {style : Style}

theorem lookupPath_of_fileName? {stem : String} (h : p.fileName? = some (stem ++ "." ++ extension))
    (hstem : stem ≠ "") (hdot : '.' ∉ extension.toList) :
    registry.lookupPath p = (registry.lookup extension).map (extension, ·) := by
  rw [lookupPath, Path.extension?_of_fileName? h hstem hdot, Option.bind_some]

theorem lookupPath_iff_endsIn : registry.lookupPath p = some (extension, style) ↔
    ∃ stem ≠ "", (Component.name (stem ++ "." ++ extension)).IsStep ∧
      Path.EndsIn p.text.toList (stem ++ "." ++ extension).toList ∧
      '.' ∉ extension.toList ∧ registry.lookup extension = some style := by
  rw [lookupPath_eq_some, Path.extension?_eq_some]
  simp only [Path.fileName?_eq_some]
  constructor
  · rintro ⟨⟨stem, hstem, ⟨hstep, hends⟩, hdot⟩, hlookup⟩
    exact ⟨stem, hstem, hstep, hends, hdot, hlookup⟩
  · rintro ⟨stem, hstem, hstep, hends, hdot, hlookup⟩
    exact ⟨⟨stem, hstem, ⟨hstep, hends⟩, hdot⟩, hlookup⟩

/-- A path is looked up as a registered extension if and only if its text ends in a name that has
this extension behind its last dot and something before it. So extensions with a dot or a slash are
registered in vain, and one that may be configured and has no slash is found in every directory and
behind every stem. -/
theorem lookupPath_reach (registry : Registry) :
    (∀ p extension style, registry.lookupPath p = some (extension, style) ↔
      ∃ stem ≠ "", (Component.name (stem ++ "." ++ extension)).IsStep ∧
        Path.EndsIn p.text.toList (stem ++ "." ++ extension).toList ∧
        '.' ∉ extension.toList ∧ registry.lookup extension = some style) ∧
    (∀ p extension style, registry.lookupPath p = some (extension, style) →
      '.' ∉ extension.toList ∧ '/' ∉ extension.toList) ∧
    (∀ extension (e : StyleEntry), e.flaw? extension = none → '/' ∉ extension.toList →
      ∀ dir stem : String, stem ≠ "" → '/' ∉ stem.toList →
        registry.lookupPath ⟨dir ++ "/" ++ (stem ++ "." ++ extension)⟩ =
          (registry.lookup extension).map (extension, ·) ∧
        registry.lookupPath (Path.join ⟨dir⟩ ⟨stem ++ "." ++ extension⟩) =
          (registry.lookup extension).map (extension, ·)) ∧
    ∀ path text config, Config.parse path text = .ok config →
      ∀ extension e, (extension, e) ∈ config.styles → '/' ∉ extension.toList →
        ∀ dir stem : String, stem ≠ "" → '/' ∉ stem.toList →
          config.registry.lookupPath ⟨dir ++ "/" ++ (stem ++ "." ++ extension)⟩ =
            some (extension, e.style) := by
  refine ⟨fun _ _ _ => lookupPath_iff_endsIn, fun p extension style h => ?_,
    fun extension e hflaw hslash dir stem hstem hstem' => ?_,
    fun path text config accepted extension e hmem hslash dir stem hstem hstem' => ?_⟩
  · obtain ⟨stem, -, hstep, -, hdot, -⟩ := lookupPath_iff_endsIn.mp h
    have hslash := hstep.isSegment.no_slash
    simp only [Component.text, String.toList_append, List.mem_append, not_or] at hslash
    exact ⟨hdot, hslash.2⟩
  · have sound := StyleEntry.flaw?_eq_none.mp hflaw
    have hstep := Path.isStep_of_extension hstem hstem' sound.nonempty hslash
    exact ⟨lookupPath_of_fileName? (Path.fileName?_under dir hstep) hstem sound.no_dot,
      lookupPath_of_fileName? (Path.fileName?_join ⟨dir⟩ hstep) hstem sound.no_dot⟩
  · have sound := (Config.parse_eq_ok.mp accepted).2 _ hmem
    have hstep := Path.isStep_of_extension hstem hstem' sound.nonempty hslash
    rw [lookupPath_of_fileName? (Path.fileName?_under dir hstep) hstem sound.no_dot,
      Config.lookup_registry_of_mem hmem, Option.map_some]

theorem lookupPath_reach_idle :
    let registry := (Config.hashStyle "new").registry
    registry.lookupPath ⟨"r//.a.b.new/./"⟩ = some ("new", .line "# ") ∧
      (registry.insert "b.new" (.line "; ")).lookupPath ⟨"r/a.b.new"⟩ ≠
        some ("b.new", .line "; ") ∧
      registry.lookupPath (Path.join ⟨".."⟩ ⟨"..new"⟩) =
        (registry.lookup "new").map ("new", ·) ∧
      registry.lookupPath ⟨"/..new"⟩ = some ("new", .line "# ") := by
  intro registry
  have hmem : ("new", ⟨"", "# ", ""⟩) ∈ (Config.hashStyle "new").styles := by
    simp [Config.hashStyle]
  have hstyle : (⟨"", "# ", ""⟩ : StyleEntry).style = .line "# " := by decide
  have hlookup : registry.lookup "new" = some (.line "# ") :=
    (Config.lookup_registry_of_mem hmem).trans (congrArg some hstyle)
  have hroot : "/..new" = "" ++ "/" ++ ("." ++ "." ++ "new") := by simp
  obtain ⟨hiff, -, hentry, hconfigured⟩ := lookupPath_reach registry
  obtain ⟨-, hvain, -⟩ := lookupPath_reach (registry.insert "b.new" (.line "; "))
  refine ⟨(hiff _ _ _).mpr ⟨".a.b", by decide, ?_, ?_, by decide, hlookup⟩, fun h => ?_, ?_, ?_⟩
  · exact Path.isStep_of_extension (by decide) (by decide) (by decide) (by decide)
  · exact ⟨"r//".toList, "/./".toList, by simp, .inr rfl, Path.Idle.nil.dot.slash⟩
  · exact absurd (hvain _ _ _ h).1 (by decide)
  · exact (hentry "new" ⟨"", "# ", ""⟩ (by decide) (by decide) ".." "." (by decide) (by decide)).2
  · have hfound := hconfigured _ _ _ Config.parse_hashText_new "new" _ hmem (by decide) "" "."
    rw [hroot, hfound (by decide) (by decide), hstyle]

end Registry
end LicenseHeader
