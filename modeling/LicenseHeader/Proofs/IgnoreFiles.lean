import LicenseHeader.Ignore
import LicenseHeader.Proofs.Placement
import Mathlib.Data.List.Infix

/-! Ignore files that are texts, and what a header put into one changes: it can only have more
ignored. -/
namespace LicenseHeader.Ignore
open Text
open Header (StartsDirective withHeader)

def dropReturn (line : List Char) : List Char :=
  if line.getLast? = some '\r' then line.dropLast else line

/-- The lines of an ignore file: the last one keeps what looks like a line end. -/
def ruleLines : List (List Char) → List (List Char)
  | [] => []
  | [last] => [last]
  | line :: rest => dropReturn line :: ruleLines rest

def rulesOfText (cs : List Char) : List Rule :=
  match ruleLines (cs.splitOn '\n') with
  | [] => []
  | first :: rest => (first.dropWhile (· == byteOrderMark) :: rest).filterMap Rule.ofLine?

private theorem decode?_encode (cs : List Char) :
    decode? ⟨(encode cs).toArray⟩ = some (String.ofList cs) := by
  rw [decode?_eq_some]
  apply ByteArray.ext
  rw [← Array.toList_inj, data_toUTF8, bytes, String.toList_ofList]

private theorem encode_dropReturn (line : List Char) :
    (if (encode line).getLast? = some 0x0D then (encode line).dropLast else encode line) =
      encode (dropReturn line) := by
  rw [dropReturn]
  cases line using List.reverseRecOn with
  | nil => rfl
  | append_singleton init c =>
    by_cases hc : c = '\r'
    · have hlast : encode (init ++ ['\r']) = encode init ++ [0x0D] := encode_append init _
      rw [hc, hlast, if_pos List.getLast?_concat, if_pos List.getLast?_concat, List.dropLast_concat,
        List.dropLast_concat]
    · have hlast : (encode (init ++ [c])).getLast? ≠ some 0x0D := by
        intro h
        have hone : encode [c] = String.utf8EncodeChar c := by simp
        rw [encode_append, hone, List.getLast?_append_of_ne_nil _ String.utf8EncodeChar_ne_nil] at h
        exact hc (Char.toNat_inj.mp
          (utf8EncodeChar_of_mem (by decide) (List.mem_of_getLast? h)).2)
      rw [if_neg hlast, if_neg (by simpa using hc)]

private theorem textLines_map_encode (ls : List (List Char)) :
    textLines (ls.map encode) = ruleLines ls := by
  induction ls with
  | nil => rfl
  | cons line rest ih =>
    cases rest with
    | nil => simp [textLines, ruleLines, decode?_encode]
    | cons next rest =>
      have hlines : ruleLines (line :: next :: rest) =
          dropReturn line :: ruleLines (next :: rest) := rfl
      rw [List.map_cons, List.map_cons, textLines, ← List.map_cons, ih, encode_dropReturn,
        decode?_encode, hlines]
      · simp only [String.toList_ofList]
      · simp

theorem rulesOf_toUTF8 (s : String) : rulesOf s.toUTF8 = rulesOfText s.toList := by
  have hlines : textLines (s.toUTF8.data.toList.splitOn 0x0A) =
      ruleLines (s.toList.splitOn '\n') := by
    rw [data_toUTF8, bytes, splitOn_encode, textLines_map_encode]
  cases hread : ruleLines (s.toList.splitOn '\n') with
  | nil => simp only [rulesOf, rulesOfText, hlines, hread]
  | cons first rest => simp only [rulesOf, rulesOfText, hlines, hread]

theorem ruleLines_append (ls : List (List Char)) {rest : List (List Char)} (hrest : rest ≠ []) :
    ruleLines (ls ++ rest) = ls.map dropReturn ++ ruleLines rest := by
  induction ls with
  | nil => rfl
  | cons line ls ih =>
    obtain ⟨next, more, hnext⟩ :=
      List.exists_cons_of_ne_nil (List.append_ne_nil_of_right_ne_nil ls hrest)
    rw [List.cons_append, List.map_cons, List.cons_append, ← ih, hnext]
    rfl

private theorem dropReturn_isPrefix (line : List Char) : dropReturn line <+: line := by
  rw [dropReturn]
  split
  · exact List.dropLast_prefix line
  · exact List.prefix_rfl

private theorem head?_of_isPrefix {a b : List Char} {c : Char} (h : a <+: b)
    (ha : a.head? = some c) : b.head? = some c := by
  obtain ⟨t, rfl⟩ := h
  rw [List.head?_append, ha]
  rfl

private theorem dropLineBlanks_isPrefix (line : List Char) : dropLineBlanks line <+: line := by
  rw [dropLineBlanks]
  split
  · exact List.prefix_rfl
  · exact dropBlankEnd_isPrefix line

/-- Only an exclamation mark at its start makes a line a rule to keep. -/
theorem verdict_of_ofLine? {line : List Char} {r : Rule} (h : line.head? ≠ some '!')
    (hr : Rule.ofLine? line = some r) : r.verdict = .ignore := by
  have hmarks : (dropMarks (dropLineBlanks line)).1 = .ignore := by
    have hhead := mt (head?_of_isPrefix (dropLineBlanks_isPrefix line)) h
    unfold dropMarks
    split <;> simp_all
  rw [Rule.ofLine?] at hr
  split at hr
  · cases hr
  · simp only at hr
    split at hr
    · cases hr
    · split at hr
      · rw [← Option.some.inj hr]
        exact hmarks
      · cases hr

theorem rulesOfText_of_head? {cs : List Char} (h : cs.head? ≠ some byteOrderMark) :
    rulesOfText cs = (ruleLines (cs.splitOn '\n')).filterMap Rule.ofLine? := by
  have hmark {first : List Char} (hfirst : first <+: cs) :
      first.dropWhile (· == byteOrderMark) = first := by
    cases first with
    | nil => rfl
    | cons c first =>
      have hc : c ≠ byteOrderMark := by
        rintro rfl
        exact h (head?_of_isPrefix hfirst rfl)
      rw [List.dropWhile_cons_of_neg (by simpa using hc)]
  rw [rulesOfText]
  by_cases hn : '\n' ∈ cs
  · obtain ⟨l, r, rfl, hl⟩ := List.eq_append_cons_of_mem hn
    have hlines : ruleLines ((l ++ '\n' :: r).splitOn '\n') =
        dropReturn l :: ruleLines (r.splitOn '\n') := by
      rw [List.splitOn_append_cons_self_of_not_mem hl]
      exact ruleLines_append [l] (List.splitOn_ne_nil '\n' r)
    rw [hlines]
    simp only [hmark ((dropReturn_isPrefix l).trans (List.prefix_append l _))]
  · rw [List.splitOn_eq_singleton hn]
    simp only [ruleLines, hmark List.prefix_rfl]

/-- Whether a line of an ignore file is empty or a comment. -/
def IsRemark (line : List Char) : Prop := line = [] ∨ line.head? = some '#'

theorem ofLine?_of_isRemark {line : List Char} (h : IsRemark line) :
    Rule.ofLine? (dropReturn line) = none := by
  rcases h with rfl | h
  · rfl
  · obtain ⟨rest, rfl⟩ := List.head?_eq_some_iff.mp h
    have hhead : (dropReturn ('#' :: rest)).head? = some '#' := by
      rw [dropReturn]
      split
      · next hlast =>
        cases rest with
        | nil => simp at hlast
        | cons c rest => rfl
      · rfl
    rw [Rule.ofLine?, if_pos hhead]

theorem isRemark_of_directive {line : List Char} (h : StartsDirective line) : IsRemark line := by
  obtain ⟨rest, rfl⟩ := h
  exact .inr rfl

/-- The rules after a header was put into an ignore file. The first line of the file must not hide
behind a byte order mark, which would no longer be at the start. -/
theorem rulesOfText_withHeader_eq {cs h : List Char} (hlone : StartsDirective cs → '\n' ∈ cs)
    (hmark : cs.head? ≠ some byteOrderMark) (hmark' : h.head? ≠ some byteOrderMark) :
    rulesOfText (withHeader h cs) =
      ((h.splitOn '\n').map dropReturn).filterMap Rule.ofLine? ++ rulesOfText cs := by
  by_cases hd : StartsDirective cs
  · obtain ⟨l, r, rfl, hl⟩ := List.eq_append_cons_of_mem (hlone hd)
    have hdl := Header.startsDirective_append_line.mp hd
    have hstart (t : List Char) : (l ++ t).head? ≠ some byteOrderMark := by
      obtain ⟨u, rfl⟩ := hdl
      simp only [List.cons_append, List.head?_cons]
      decide
    have hrest := List.splitOn_ne_nil '\n' r
    rw [Header.withHeader_of_line hdl hl, rulesOfText_of_head? (hstart _),
      rulesOfText_of_head? (hstart _), List.splitOn_append_cons_self_of_not_mem hl,
      List.splitOn_append_cons_self_of_not_mem hl, List.splitOn_append_cons_self]
    have hnew : ruleLines (l :: (h.splitOn '\n' ++ r.splitOn '\n')) =
        dropReturn l :: ((h.splitOn '\n').map dropReturn ++ ruleLines (r.splitOn '\n')) :=
      ruleLines_append (l :: h.splitOn '\n') hrest
    have hold : ruleLines (l :: r.splitOn '\n') = dropReturn l :: ruleLines (r.splitOn '\n') :=
      ruleLines_append [l] hrest
    have hnone := ofLine?_of_isRemark (isRemark_of_directive hdl)
    rw [hnew, hold, List.filterMap_cons_none hnone, List.filterMap_cons_none hnone,
      List.filterMap_append]
  · have hstart : (h ++ '\n' :: cs).head? ≠ some byteOrderMark := by
      cases h with
      | nil =>
        simp only [List.nil_append, List.head?_cons]
        decide
      | cons c h => exact hmark'
    rw [Header.withHeader_of_not hd, rulesOfText_of_head? hstart, rulesOfText_of_head? hmark,
      List.splitOn_append_cons_self, ruleLines_append _ (List.splitOn_ne_nil '\n' cs),
      List.filterMap_append]

/-- A header without rules to keep put into an ignore file adds rules to ignore more, in front of
those it has. -/
theorem rulesOfText_withHeader {cs h : List Char} (hlone : StartsDirective cs → '\n' ∈ cs)
    (hmark : cs.head? ≠ some byteOrderMark) (hmark' : h.head? ≠ some byteOrderMark)
    (hplain : ∀ line ∈ h.splitOn '\n', line.head? ≠ some '!') :
    ∃ added : List Rule, (∀ r ∈ added, r.verdict = .ignore) ∧
      rulesOfText (withHeader h cs) = added ++ rulesOfText cs := by
  refine ⟨_, fun r hr => ?_, rulesOfText_withHeader_eq hlone hmark hmark'⟩
  obtain ⟨line, hline, hr⟩ := List.mem_filterMap.mp hr
  obtain ⟨whole, hwhole, rfl⟩ := List.mem_map.mp hline
  exact verdict_of_ofLine?
    (mt (head?_of_isPrefix (dropReturn_isPrefix whole)) (hplain whole hwhole)) hr

theorem head?_of_remarks {cs : List Char} (h : ∀ line ∈ cs.splitOn '\n', IsRemark line) :
    cs.head? ≠ some byteOrderMark := by
  obtain ⟨l, hl, heq⟩ := exists_line_of_text cs
  intro hhead
  rcases h l hl with rfl | hl'
  · rcases heq with rfl | ⟨r, rfl⟩
    · cases hhead
    · exact absurd (Option.some.inj hhead) (by decide)
  · obtain ⟨t, rfl⟩ := List.head?_eq_some_iff.mp hl'
    rcases heq with rfl | ⟨r, rfl⟩ <;> exact absurd (Option.some.inj hhead) (by decide)

theorem rulesOfText_of_remarks {cs : List Char} (h : ∀ line ∈ cs.splitOn '\n', IsRemark line) :
    rulesOfText (cs ++ ['\n']) = [] := by
  have hhead : (cs ++ ['\n']).head? ≠ some byteOrderMark := by
    have hcs := head?_of_remarks h
    cases cs with
    | nil => decide
    | cons c cs => exact hcs
  rw [rulesOfText_of_head? hhead, List.splitOn_append_cons_self,
    ruleLines_append _ (List.splitOn_ne_nil '\n' []), List.filterMap_append]
  have hnone : ((cs.splitOn '\n').map dropReturn).filterMap Rule.ofLine? = [] := by
    simpa [List.filterMap_eq_nil_iff] using fun line hl => ofLine?_of_isRemark (h line hl)
  rw [hnone]
  rfl

/-- A header of remarks put into an ignore file changes no rule, unless one hides behind a byte
order mark. -/
theorem rulesOfText_withHeader_of_remarks {cs h : List Char}
    (hmark : cs.head? ≠ some byteOrderMark) (hremarks : ∀ line ∈ h.splitOn '\n', IsRemark line) :
    rulesOfText (withHeader h cs) = rulesOfText cs := by
  by_cases hlone : StartsDirective cs → '\n' ∈ cs
  · have hnone : ((h.splitOn '\n').map dropReturn).filterMap Rule.ofLine? = [] := by
      simpa [List.filterMap_eq_nil_iff] using fun line hl => ofLine?_of_isRemark (hremarks line hl)
    rw [rulesOfText_withHeader_eq hlone hmark (head?_of_remarks hremarks), hnone, List.nil_append]
  · -- the header goes on in the directive line, which stays a remark
    obtain ⟨hd, hl⟩ := Classical.not_imp.mp hlone
    have hlines : ∀ line ∈ (cs ++ h).splitOn '\n', IsRemark line := by
      have hfirst (l : List Char) : IsRemark (cs ++ l) :=
        isRemark_of_directive (hd.trans (List.prefix_append cs l))
      by_cases hn : '\n' ∈ h
      · obtain ⟨l, r, rfl, hlr⟩ := List.eq_append_cons_of_mem hn
        rw [List.splitOn_append_cons_self_of_not_mem hlr] at hremarks
        rw [← List.append_assoc, List.splitOn_append_cons_self_of_not_mem (by simp [hl, hlr])]
        exact List.forall_mem_cons.mpr ⟨hfirst l, (List.forall_mem_cons.mp hremarks).2⟩
      · rw [List.splitOn_eq_singleton (by simp [hl, hn])]
        simpa using hfirst h
    have hnone : Rule.ofLine? cs = none := by
      obtain ⟨rest, rfl⟩ := hd
      rfl
    rw [Header.withHeader_of_lone hd hl, ← List.append_assoc, rulesOfText_of_remarks hlines,
      rulesOfText_of_head? hmark, List.splitOn_eq_singleton hl]
    simp [ruleLines, hnone]

/-- Rules that say what others say, or ignore where these say nothing. -/
def Stricter (rules' rules : List Rule) : Prop := ∀ path isDir,
  decide? rules' path isDir = decide? rules path isDir ∨
    decide? rules path isDir = none ∧ decide? rules' path isDir = some .ignore

theorem Stricter.refl (rules : List Rule) : Stricter rules rules := fun _ _ => .inl rfl

/-- More rules to ignore in front, where all that follow go before them. -/
theorem stricter_append {added : List Rule} (h : ∀ r ∈ added, r.verdict = .ignore)
    (rules : List Rule) : Stricter (added ++ rules) rules := by
  intro path isDir
  simp only [decide?, List.reverse_append, List.find?_append, Option.map_or]
  cases hold : rules.reverse.find? (·.applies path isDir) with
  | some r => exact .inl rfl
  | none =>
    cases hnew : added.reverse.find? (·.applies path isDir) with
    | none => exact .inl rfl
    | some r =>
      have hr := h r (List.mem_reverse.mp (List.mem_of_find?_eq_some hnew))
      exact .inr ⟨rfl, congrArg some hr⟩

private theorem findSome?_of_stricter {α : Type} {f g : α → Option Verdict} {xs : List α}
    (h : ∀ x ∈ xs, g x = f x ∨ f x = none ∧ g x = some .ignore) :
    xs.findSome? g = xs.findSome? f ∨ xs.findSome? g = some .ignore := by
  induction xs with
  | nil => exact .inl rfl
  | cons x xs ih =>
    obtain ⟨hx, hxs⟩ := List.forall_mem_cons.mp h
    rw [List.findSome?_cons, List.findSome?_cons]
    rcases hx with heq | ⟨hnone, hignore⟩
    · rw [heq]
      cases f x with
      | none => exact ih hxs
      | some v => exact .inl rfl
    · rw [hignore]
      exact .inr rfl

structure BothStricter (rules' rules : RulePair) : Prop where
  license : Stricter rules'.license rules.license
  version : Stricter rules'.version rules.version

theorem BothStricter.of_eq {rules rules' : RulePair} (h : rules' = rules) :
    BothStricter rules' rules :=
  h ▸ ⟨.refl _, .refl _⟩

/-- Stricter rules in some directories have more ignored, and nothing less. -/
theorem isIgnored_of_stricter {α : Type} {rules rules' : α → RulePair} {below : α → List String}
    {xs : List α} (h : ∀ x ∈ xs, BothStricter (rules' x) (rules x)) {name : String} {isDir : Bool}
    (hold : isIgnored (xs.map fun x => ⟨rules x, below x⟩) name isDir = true) :
    isIgnored (xs.map fun x => ⟨rules' x, below x⟩) name isDir = true := by
  have hkind (kind : RulePair → List Rule)
      (hk : ∀ x ∈ xs, Stricter (kind (rules' x)) (kind (rules x))) :
      firstVerdict? kind (xs.map fun x => ⟨rules' x, below x⟩) name isDir =
        firstVerdict? kind (xs.map fun x => ⟨rules x, below x⟩) name isDir ∨
      firstVerdict? kind (xs.map fun x => ⟨rules' x, below x⟩) name isDir = some .ignore := by
    rw [firstVerdict?, firstVerdict?, List.findSome?_map, List.findSome?_map]
    exact findSome?_of_stricter fun x hx => hk x hx _ isDir
  have hlicense := hkind (·.license) fun x hx => (h x hx).license
  have hversion := hkind (·.version) fun x hx => (h x hx).version
  rw [isIgnored, beq_iff_eq] at hold ⊢
  rcases hlicense with hlicense | hlicense
  · rw [hlicense]
    cases hl : firstVerdict? (·.license) (xs.map fun x => (⟨rules x, below x⟩ : Level)) name
        isDir with
    | some v =>
      rw [hl] at hold
      exact hold
    | none =>
      rw [hl] at hold
      rcases hversion with hversion | hversion
      · rw [hversion]
        exact hold
      · rw [hversion]
        rfl
  · rw [hlicense]
    rfl

end LicenseHeader.Ignore
