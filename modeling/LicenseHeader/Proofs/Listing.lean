import LicenseHeader.CommandLine.Report
import Mathlib.Data.List.Basic

/-! What a run says of the files that lacked their header: each of them is shown, or counted among
those that are not. -/
namespace LicenseHeader.CommandLine

namespace Listing

theorem shown_ofNames (all : Bool) (names : List String) :
    (ofNames all names).shown = names.take (bound all names.length) := rfl

/-- The difference that is taken for a listing is never below zero. -/
theorem leftOut?_length (all : Bool) (names : List String) :
    leftOut? all names.length = some (ofNames all names).hidden :=
  (Option.some_get (isSome_leftOut? all names.length)).symm

theorem length_shown (all : Bool) (names : List String) :
    (ofNames all names).shown.length = if all then names.length else min names.length limit := by
  rw [shown_ofNames, List.length_take]
  cases all with
  | true => exact Nat.min_self names.length
  | false => exact Nat.min_comm limit names.length

theorem take_length_shown (all : Bool) (names : List String) :
    names.take (ofNames all names).shown.length = (ofNames all names).shown := by
  rw [shown_ofNames, List.length_take, List.take_eq_take_iff]
  omega

/-- A listing shows or leaves out each name. -/
theorem shown_add_hidden (all : Bool) (names : List String) :
    (ofNames all names).shown.length + (ofNames all names).hidden = names.length := by
  have hhidden : (ofNames all names).hidden = names.length - bound all names.length :=
    Option.some.inj ((leftOut?_length all names).symm.trans (leftOut?_eq_sub all names.length))
  rw [hhidden, shown_ofNames, List.length_take]
  omega

end Listing

namespace Look

variable {l : Look} {m n : Nat}

/-- The digits of a number can be read from the start of a text that goes on with a blank. -/
theorem takeWhile_number (n : Nat) (s : String) :
    (toString n ++ (" " ++ s)).toList.takeWhile Char.isDigit = Nat.toDigits 10 n := by
  have hdigits : ∀ c ∈ Nat.toDigits 10 n, c.isDigit = true :=
    fun c hc => Nat.isDigit_of_mem_toDigits (by decide) (by decide) hc
  have htext : (toString n ++ (" " ++ s)).toList = Nat.toDigits 10 n ++ ' ' :: s.toList := by simp
  rw [htext, List.takeWhile_append_of_pos hdigits, List.takeWhile_cons_of_neg (by decide),
    List.append_nil]

theorem number_inj {s t : String} (h : toString m ++ (" " ++ s) = toString n ++ (" " ++ t)) :
    m = n := by
  have hdigits : Nat.toDigits 10 m = Nat.toDigits 10 n := by
    rw [← takeWhile_number m s, h, takeWhile_number]
  calc
    m = Nat.ofDigitChars 10 (Nat.toDigits 10 m) 0 := Nat.ofDigitChars_ten_toDigits.symm
    _ = n := by rw [hdigits, Nat.ofDigitChars_ten_toDigits]

/-- The number of files can be read from what is said before their names. -/
theorem heading_inj : l.heading m = l.heading n ↔ m = n := by
  refine ⟨fun h => ?_, fun h => h ▸ rfl⟩
  rw [heading, heading] at h
  split at h
  all_goals
    simp only [String.append_assoc, String.append_right_inj] at h
    exact number_inj h

/-- What is said of files that lacked their header. First comes how many there are. Then the first
of them are shown in the order of the scan, by their names as seen from the root: all of them, or
twenty at most. How many are left out comes after them, unless it is none. In quiet mode all are
shown and nothing else is said. -/
theorem finished_accounts (l : Look) (root : Path) (r : Scan.Report) (hsome : r.violations ≠ []) :
    let n := r.violations.length
    let p := if l.detail = .verbose then n else min n 20
    ∃ k, p + k = n ∧ Listing.leftOut? (l.detail = .verbose) n = some k ∧
      (l.detail ≠ .quiet → l.finished root r =
        "" :: l.heading n ::
          (r.violations.take p).map (fun file => "  " ++ file.relativeTo root) ++
          (if p < n then ["  " ++ Color.dim.paint l.colored "" ++ " ... and " ++ toString k ++
            " more (use -v to see all)"] else []) ++
          if l.write then [] else
            ["", Color.yellow.paint l.colored "Run with --write to add missing headers."]) ∧
      (l.detail = .quiet → l.finished root r = r.violations.map (·.relativeTo root)) ∧
      ∀ m, l.heading m = l.heading n ↔ m = n := by
  intro n p
  let all : Bool := l.detail = .verbose
  let names := r.violations.map (·.relativeTo root)
  have hcount : names.length = n := List.length_map ..
  have hfinished : l.finished root r = l.violations names := if_neg (by simpa using hsome)
  let listing := Listing.ofNames all names
  have hp : listing.shown.length = p := by
    rw [Listing.length_shown, hcount]
    by_cases hverbose : l.detail = .verbose <;> simp [p, all, hverbose, Listing.limit]
  have hshown : listing.shown = names.take p := by rw [← hp, Listing.take_length_shown]
  have hsum : p + listing.hidden = n := by rw [← hp, Listing.shown_add_hidden, hcount]
  refine ⟨listing.hidden, hsum, ?_, fun hdetail => ?_, fun hquiet => ?_, fun m => heading_inj⟩
  · rw [← hcount, Listing.leftOut?_length]
  · have htotal : listing.total = n := hcount
    have hremainder : l.remainder listing.hidden = if p < n then ["  " ++
        Color.dim.paint l.colored "" ++ " ... and " ++ toString listing.hidden ++
          " more (use -v to see all)"] else [] := by
      rw [remainder, ← ite_not]
      exact if_congr (by omega) rfl rfl
    rw [hfinished, violations, if_neg hdetail]
    simp only
    rw [htotal, hshown, hremainder, List.map_take, List.map_take, List.map_map]
    rfl
  · rw [hfinished, violations, if_pos hquiet]

def crowded : Scan.Report :=
  ⟨⟨21, 0, 21, 0, 1⟩, (List.range 21).map fun i => ⟨"/r/" ++ toString i ++ ".py"⟩⟩

theorem finished_accounts_crowded :
    let files := crowded.violations
    (⟨.normal, false, true⟩ : Look).finished ⟨"/r"⟩ crowded =
        "" :: "✓ Added license to 21 files that had none:" ::
          (files.take 20).map (fun file => "  " ++ file.relativeTo ⟨"/r"⟩) ++
          ["   ... and 1 more (use -v to see all)"] ∧
      (⟨.verbose, false, true⟩ : Look).finished ⟨"/r"⟩ crowded =
        "" :: "✓ Added license to 21 files that had none:" ::
          files.map (fun file => "  " ++ file.relativeTo ⟨"/r"⟩) := by
  intro files
  have hsome : crowded.violations ≠ [] := by decide
  obtain ⟨k, hk, -, hnormal, -⟩ :=
    finished_accounts ⟨.normal, false, true⟩ ⟨"/r"⟩ crowded hsome
  obtain ⟨_, -, -, hverbose, -⟩ :=
    finished_accounts ⟨.verbose, false, true⟩ ⟨"/r"⟩ crowded hsome
  have hk : 20 + k = 21 := hk
  obtain rfl : k = 1 := by omega
  constructor
  · rw [hnormal nofun]
    rfl
  · rw [hverbose nofun]
    rfl

end Look

end LicenseHeader.CommandLine
