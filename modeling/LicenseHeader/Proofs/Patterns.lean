import LicenseHeader.Proofs.Encoding
import LicenseHeader.Proofs.Paths
import LicenseHeader.Proofs.Registry
import LicenseHeader.Scan.Candidates

/-! The patterns of a registry against extensions: a pattern made of an extension that has only
plain characters matches the names with this extension, and no others. -/
namespace LicenseHeader.Glob
open Text (encode)

/-- The characters that do not stand for themselves everywhere in a pattern. A closing bracket and
a comma do outside of a class and a choice. -/
def special : List Char := ['*', '?', '[', '{', '}', '\\']

/-- Characters that all stand for themselves. -/
def Plain (cs : List Char) : Prop := ∀ c ∈ cs, c ∉ special

instance (cs : List Char) : Decidable (Plain cs) :=
  List.decidableBAll (· ∉ special) cs

def suffix (cs : List Char) : List Token := .star :: cs.map .literal

section
variable {lenient : Bool} {fuel : Nat} {d : Draft} {c : Char} {cs : List Char}
  {next : List UInt8 → Bool} {s rest : List UInt8}

theorem readTokens_plain (hc : c ∉ special) (hd : d.choices = []) (cs : List Char) :
    readTokens lenient (fuel + 1) d (c :: cs) =
      readTokens lenient fuel (d.push (.literal c) c) cs := by
  simp only [special, List.mem_cons, List.not_mem_nil, or_false, not_or] at hc
  by_cases hcomma : c = ','
  · subst c
    simp [readTokens, Draft.nextBranch, hd]
  · simp [readTokens, hc]

theorem readTokens_all_plain (lenient : Bool) (h : Plain cs) (hd : d.choices = [])
    (hfuel : cs.length < fuel) :
    ∃ d', readTokens lenient fuel d cs = .ok d' ∧ d'.choices = [] ∧
      d'.tokens.reverse = d.tokens.reverse ++ cs.map .literal := by
  induction cs generalizing fuel d with
  | nil =>
    obtain ⟨fuel, rfl⟩ := Nat.exists_eq_succ_of_ne_zero (Nat.ne_of_gt hfuel)
    exact ⟨d, rfl, hd, by simp⟩
  | cons c cs ih =>
    obtain ⟨fuel, rfl⟩ := Nat.exists_eq_succ_of_ne_zero (Nat.ne_of_gt (Nat.zero_lt_of_lt hfuel))
    obtain ⟨hc, hcs⟩ := List.forall_mem_cons.mp h
    rw [readTokens_plain hc hd]
    obtain ⟨d', hread, hchoices, htokens⟩ :=
      ih (d := d.push (.literal c) c) hcs hd (Nat.lt_of_succ_lt_succ hfuel)
    exact ⟨d', hread, hchoices, by rw [htokens]; simp [Draft.push]⟩

theorem parse_suffix (lenient : Bool) (h : Plain cs) :
    parse lenient ('*' :: cs) = .ok (suffix cs) := by
  have hstar : ∀ d fuel, readTokens lenient (fuel + 1) d ('*' :: cs) =
      readTokens lenient fuel (d.push .star '*') cs := by
    intro d fuel
    cases cs with
    | nil => simp [readTokens]
    | cons c cs =>
      have hc : c ≠ '*' := fun heq => h c List.mem_cons_self (heq ▸ List.mem_cons_self)
      simp [readTokens, hc]
  obtain ⟨d', hread, hchoices, htokens⟩ := readTokens_all_plain lenient
    (d := Draft.push ⟨[], [], none, false⟩ .star '*') h rfl (Nat.lt_succ_self cs.length)
  rw [parse, List.length_cons, hstar, hread]
  simp [bind, Except.bind, hchoices, htokens, Draft.push, suffix]

theorem afterBytes?_eq_some {bs : List UInt8} : afterBytes? bs s = some rest ↔ s = bs ++ rest := by
  fun_induction afterBytes? bs s with
  | case1 s => simp
  | case2 b bs s ih => simp [ih]
  | case3 b bs c s hne => simp [Ne.symm hne]
  | case4 => simp

theorem afterStar_iff : afterStar next s = true ↔
    ∃ stem rest, s = stem ++ rest ∧ slash ∉ stem ∧ next rest = true := by
  induction s with
  | nil => simp [afterStar, and_assoc]
  | cons b s ih =>
    simp only [afterStar, Bool.or_eq_true, Bool.and_eq_true, bne_iff_ne, ih]
    constructor
    · rintro (hnext | ⟨hb, stem, rest, rfl, hstem, hnext⟩)
      · exact ⟨[], b :: s, rfl, List.not_mem_nil, hnext⟩
      · exact ⟨b :: stem, rest, rfl, by simp [hstem, Ne.symm hb], hnext⟩
    · rintro ⟨stem, rest, heq, hstem, hnext⟩
      cases stem with
      | nil => exact .inl (heq ▸ hnext)
      | cons c stem =>
        obtain ⟨rfl, rfl⟩ := List.cons.inj heq
        rw [List.mem_cons, not_or] at hstem
        exact .inr ⟨Ne.symm hstem.1, stem, rest, rfl, hstem.2, hnext⟩

theorem runAll_literals : runAll next s (cs.map .literal) = true ↔
    ∃ rest, s = encode cs ++ rest ∧ next rest = true := by
  induction cs generalizing s with
  | nil => simp [runAll]
  | cons c cs ih =>
    simp only [List.map_cons, runAll, Token.run, Option.any_eq_true, afterBytes?_eq_some, ih,
      Text.encode_cons, List.append_assoc]
    constructor
    · rintro ⟨_, rfl, rest, rfl, hnext⟩
      exact ⟨rest, rfl, hnext⟩
    · rintro ⟨rest, rfl, hnext⟩
      exact ⟨_, rfl, rest, rfl, hnext⟩

theorem matchesBytes_suffix : matchesBytes (suffix cs) s = true ↔
    ∃ stem, s = stem ++ encode cs ∧ slash ∉ stem := by
  simp [matchesBytes, suffix, runAll, Token.run, afterStar_iff, runAll_literals]

end

/-- A star with a dot and plain characters after it matches the names that end so. -/
theorem matchesBytes_suffix_bytes {name : String} {cs : List Char} (h : '/' ∉ name.toList) :
    matchesBytes (suffix ('.' :: cs)) (Text.bytes name) = true ↔
      ∃ stem, name.toList = stem ++ '.' :: cs := by
  rw [matchesBytes_suffix, Text.bytes]
  constructor
  · -- the bytes before that of the dot are those of whole characters
    rintro ⟨stem, heq, -⟩
    obtain ⟨stem, hname, -⟩ := (Text.encode_eq_append_cons (by decide)).mp heq
    exact ⟨stem, hname⟩
  · rintro ⟨stem, hname⟩
    refine ⟨encode stem, by rw [hname, Text.encode_append], fun hslash => h ?_⟩
    have hmem : '/' ∈ stem := (Text.mem_encode_iff (by decide)).mp hslash
    exact hname ▸ List.mem_append_left _ hmem

end LicenseHeader.Glob

namespace LicenseHeader.Registry

/-- A registry whose extensions stand for themselves in patterns and have no dot. -/
def Literal (r : Registry) : Prop :=
  ∀ extension ∈ r.extensions, '.' ∉ extension.toList ∧ Glob.Plain extension.toList

instance (r : Registry) : Decidable r.Literal :=
  inferInstanceAs (Decidable (∀ extension ∈ r.extensions,
    '.' ∉ extension.toList ∧ Glob.Plain extension.toList))

theorem literal_builtin : builtin.Literal := by
  have hspecial : ('.' :: Glob.special).all (!·.isAlphanum) = true := by decide
  have hno {extension : String} (hmem : extension ∈ builtin.extensions) {c : Char}
      (hc : c ∈ '.' :: Glob.special) : c ∉ extension.toList := by
    intro hin
    have hnot := List.all_eq_true.mp hspecial c hc
    rw [isAlphanum_builtin hmem c hin] at hnot
    cases hnot
  intro extension hmem
  exact ⟨hno hmem List.mem_cons_self, fun c hc hs => hno hmem (List.mem_cons_of_mem _ hs) hc⟩

theorem Literal.insert {r : Registry} (h : r.Literal) {extension : String}
    (hdot : '.' ∉ extension.toList) (hplain : Glob.Plain extension.toList) (style : Style) :
    (r.insert extension style).Literal := by
  intro other hmem
  rcases mem_extensions_insert.mp hmem with rfl | hmem
  · exact ⟨hdot, hplain⟩
  · exact h other hmem

def registers (r : Registry) (name : String) : Bool :=
  (Path.nameExtension? name).any fun extension => (r.lookup extension).isSome

theorem registers_iff {r : Registry} {name : String} : r.registers name = true ↔
    ∃ extension ∈ r.extensions, Path.nameExtension? name = some extension := by
  rw [registers, Option.any_eq_true]
  simp only [lookup_isSome_iff, and_comm]

theorem registers_builtin : builtin.registers = fun name =>
    (Path.nameExtension? name).any fun extension => (Style.builtin? extension).isSome := by
  funext name
  simp only [registers, lookup_builtin]

theorem registers_insert (r : Registry) (extension : String) (style : Style) :
    (r.insert extension style).registers = fun name =>
      Path.nameExtension? name == some extension || r.registers name := by
  funext name
  rw [registers, registers]
  cases Path.nameExtension? name with
  | none => rfl
  | some other =>
    rw [Option.any_some, Option.any_some, lookup_insert]
    by_cases h : other = extension <;> simp [h]

end LicenseHeader.Registry

namespace LicenseHeader.Scan

/-- The pattern of the names that end in an extension. -/
def globOf (extension : String) : Except Glob.Error (List Glob.Token) :=
  Glob.parse false ("*." ++ extension).toList

/-- Whether an extension has a pattern, and that matches a name. -/
def GlobMatches (extension name : String) : Prop :=
  ∃ g, globOf extension = .ok g ∧ Glob.matchesBytes g (Text.bytes name) = true

variable {extension name : String}

theorem globOf_plain (h : Glob.Plain extension.toList) :
    globOf extension = .ok (Glob.suffix ('.' :: extension.toList)) := by
  have hplain : Glob.Plain ('.' :: extension.toList) :=
    List.forall_mem_cons.mpr ⟨by decide, h⟩
  have hpattern : ("*." ++ extension).toList = '*' :: '.' :: extension.toList := by simp
  rw [globOf, hpattern, Glob.parse_suffix false hplain]

/-- A plain extension has the pattern of the names with this extension. -/
theorem globMatches_iff (h : Glob.Plain extension.toList) (hdot : '.' ∉ extension.toList)
    (hslash : '/' ∉ name.toList) (hvisible : isHidden name = false) :
    GlobMatches extension name ↔ Path.nameExtension? name = some extension := by
  simp only [GlobMatches, globOf_plain h, Except.ok.injEq, exists_eq_left',
    Glob.matchesBytes_suffix_bytes hslash, Path.nameExtension?_eq_some]
  constructor
  · rintro ⟨stem, hname⟩
    refine ⟨stem, ?_, hname, hdot⟩
    rintro rfl
    simp [isHidden, hname] at hvisible
  · rintro ⟨stem, -, hname, -⟩
    exact ⟨stem, hname⟩

private theorem mapM_cases {α β ε : Type} (f : α → Except ε β) (xs : List α) :
    (∃ ys, xs.mapM f = .ok ys ∧ (∀ x ∈ xs, ∃ y, f x = .ok y) ∧
      ∀ y, y ∈ ys ↔ ∃ x ∈ xs, f x = .ok y) ∨
    ∃ x ∈ xs, ∃ e, f x = .error e ∧ xs.mapM f = .error e := by
  induction xs with
  | nil => exact .inl ⟨[], rfl, by simp, by simp⟩
  | cons x xs ih =>
    rw [List.mapM_cons]
    cases hx : f x with
    | error e => exact .inr ⟨x, List.mem_cons_self, e, hx, rfl⟩
    | ok y =>
      rcases ih with ⟨ys, heq, hall, hmem⟩ | ⟨x', hx', e, he, heq⟩
      · refine .inl ⟨y :: ys, by rw [heq]; rfl, List.forall_mem_cons.mpr ⟨⟨y, hx⟩, hall⟩, ?_⟩
        intro z
        simp [hmem, hx, eq_comm]
      · exact .inr ⟨x', List.mem_cons_of_mem x hx', e, he, by rw [heq]; rfl⟩

private theorem mapError_eq_ok {α ε ε' : Type} {f : ε → ε'} {x : Except ε α} {y : α} :
    x.mapError f = .ok y ↔ x = .ok y := by
  cases x <;> simp [Except.mapError]

private theorem mapError_eq_error {α ε ε' : Type} {f : ε → ε'} {x : Except ε α} {e : ε'} :
    x.mapError f = .error e ↔ ∃ cause, x = .error cause ∧ f cause = e := by
  cases x <;> simp [Except.mapError]

theorem globs_eq (registry : Registry) : globs registry = registry.extensions.mapM fun extension =>
    (globOf extension).mapError (.badPattern ("*." ++ extension)) := by
  rw [globs, Registry.patterns, List.mapM_map]
  congr 1
  funext extension
  simp only [Function.comp_apply, globOf]
  cases Glob.parse false ("*." ++ extension).toList <;> rfl

/-- The patterns of a registry match what one of them matches, or one of them is invalid. -/
theorem globs_cases (registry : Registry) :
    (∃ gs, globs registry = .ok gs ∧ (∀ extension ∈ registry.extensions,
        ∃ g, globOf extension = .ok g) ∧
      ∀ name, matchesSome gs name = true ↔
        ∃ extension ∈ registry.extensions, GlobMatches extension name) ∨
    ∃ extension ∈ registry.extensions, ∃ cause, globOf extension = .error cause ∧
      globs registry = .error (.badPattern ("*." ++ extension) cause) := by
  rw [globs_eq]
  rcases mapM_cases (fun extension => (globOf extension).mapError
      (WalkError.badPattern ("*." ++ extension))) registry.extensions with
    ⟨gs, heq, hall, hmem⟩ | ⟨extension, h, e, he, heq⟩
  · simp only [mapError_eq_ok] at hall hmem
    refine .inl ⟨gs, heq, hall, fun name => ?_⟩
    rw [matchesSome, List.any_eq_true]
    constructor
    · rintro ⟨g, hg, hmatch⟩
      obtain ⟨extension, h, hg⟩ := (hmem g).mp hg
      exact ⟨extension, h, g, hg, hmatch⟩
    · rintro ⟨extension, h, g, hg, hmatch⟩
      exact ⟨g, (hmem g).mpr ⟨extension, h, hg⟩, hmatch⟩
  · obtain ⟨cause, hcause, rfl⟩ := mapError_eq_error.mp he
    exact .inr ⟨extension, h, cause, hcause, heq⟩

theorem matchesSome_of_literal {registry : Registry} (h : registry.Literal) :
    ∃ gs, globs registry = .ok gs ∧ ∀ name : String, '/' ∉ name.toList → isHidden name = false →
      (matchesSome gs name = true ↔
        ∃ extension ∈ registry.extensions, Path.nameExtension? name = some extension) := by
  rcases globs_cases registry with ⟨gs, hgs, -, hmatches⟩ | ⟨extension, hmem, cause, hcause, -⟩
  · refine ⟨gs, hgs, fun name hslash hvisible => ?_⟩
    rw [hmatches]
    refine exists_congr fun extension => and_congr_right fun hmem => ?_
    exact globMatches_iff (h extension hmem).2 (h extension hmem).1 hslash hvisible
  · cases (globOf_plain (h extension hmem).2).symm.trans hcause

end LicenseHeader.Scan
