import Mathlib.Data.List.Forall2
import Mathlib.Tactic.Common
import LittleMan.Proofs.Assembly.Meaning
import LittleMan.Proofs.Channel.Intake
import LittleMan.Proofs.Sorting.Bubble
import LittleMan.Proofs.Sorting.Parts
import LittleMan.Proofs.Text.Line
import LittleMan.Proofs.Text.Numeral

/-!
# The sorting program sorts

A pass of the program is a pass over the list of its values, so every pass but the last one takes
inversions out of it, and the last one finds it sorted.
-/

namespace LittleMan.Sorting

open Assembly (assemble load_of_length_le)

variable {settings : Settings} {values first rest xs ys : List Word} {pair : Nat}
  {x y w flag : Word} {c : Buffer}

/-! ## Values that can be sorted -/

theorem Tame.of_perm (h : Tame settings xs) (hperm : ys.Perm xs) : Tame settings ys := by
  intro x hx
  obtain ⟨hkeeps, hdiff⟩ := h x (hperm.mem_iff.mp hx)
  exact ⟨hkeeps, fun y hy => hdiff y (hperm.mem_iff.mp hy)⟩

theorem keeps_iff : settings.Keeps .decimal w ↔
    (settings.wrapValues = true → -999 ≤ w.toInt ∧ w.toInt ≤ 999) := by
  unfold Settings.Keeps Architecture.inRange
  rw [Range.contains_iff]
  rfl

/-- The difference of two words is a word. -/
def Fits (x y : Word) : Prop :=
  Int64.minValue.toInt ≤ x.toInt - y.toInt ∧ x.toInt - y.toInt ≤ Int64.maxValue.toInt

instance (x y : Word) : Decidable (Fits x y) := inferInstanceAs (Decidable (_ ∧ _))

theorem Fits.toInt_sub (h : Fits x y) : (x - y).toInt = x.toInt - y.toInt := by
  unfold Fits at h
  rw [Int64.toInt_minValue, Int64.toInt_maxValue] at h
  rw [Int64.toInt_sub, Int.bmod_eq_of_le (by omega) (by omega)]

theorem tame_of_bounds
    (hsmall : settings.wrapValues = true → ∀ x ∈ xs, -499 ≤ x.toInt ∧ x.toInt ≤ 499)
    (hfits : settings.wrapValues = false → ∀ x ∈ xs, ∀ y ∈ xs, Fits x y) :
    Tame settings xs := by
  intro x hx
  have hkeeps : settings.Keeps .decimal x := by
    rw [keeps_iff]
    intro hwrap
    have := hsmall hwrap x hx
    omega
  refine ⟨hkeeps, ?_⟩
  intro y hy
  have hdiff : (y - x).toInt = y.toInt - x.toInt := by
    apply Fits.toInt_sub
    cases hwrap : settings.wrapValues with
    | false => exact hfits hwrap y hy x hx
    | true =>
      have := hsmall hwrap x hx
      have := hsmall hwrap y hy
      unfold Fits
      rw [Int64.toInt_minValue, Int64.toInt_maxValue]
      omega
  constructor
  · rw [keeps_iff, hdiff]
    intro hwrap
    have := hsmall hwrap x hx
    have := hsmall hwrap y hy
    omega
  · rw [Int64.le_iff_toInt_le, Int64.le_iff_toInt_le, hdiff]
    exact Int.sub_nonneg

/-! ## Passes -/

theorem treat_pair (hpair : first.length < 4) (htame : Tame settings (first ++ x :: y :: rest)) :
    Part settings 31 13 (if first.length + 1 = 4 then 44 else 13) c c
      (State (first ++ x :: y :: rest) first.length flag)
      (State (first ++ if x ≤ y then x :: y :: rest else y :: x :: rest) (first.length + 1)
        (if x ≤ y then flag else 1)) :=
  ((make_instructions hpair).trans (order_pair htame)).trans (next_pair hpair)

theorem finish_pass (first : List Word) (flag : Word) (hlength : first.length + rest.length = 4)
    (htame : Tame settings (first ++ x :: rest)) :
    Part settings (31 * rest.length) (if first.length = 4 then 44 else 13) 44 c c
      (State (first ++ x :: rest) first.length flag)
      (State (first ++ bubble x rest) 4 (if (x :: rest).Pairwise (· ≤ ·) then flag else 1)) := by
  induction rest generalizing first x flag with
  | nil =>
    have hfirst : first.length = 4 := hlength
    rw [if_pos hfirst, hfirst, bubble, if_pos (List.pairwise_singleton _ _)]
    exact .refl _ 44 c _
  | cons y rest ih =>
    rw [List.length_cons] at hlength
    have hpair : Part settings 31 13 _ c c (State (first ++ x :: y :: rest) first.length flag) _ :=
      treat_pair (by omega) htame
    rw [if_neg (by omega), List.length_cons, Nat.mul_succ, Nat.add_comm, bubble]
    simp only [pairwise_cons_cons]
    by_cases hxy : x ≤ y
    · have hrest := ih (first ++ [x]) flag (by simp; omega) (by simpa using htame)
      simp only [List.append_assoc, List.singleton_append, List.length_append,
        List.length_singleton] at hrest
      simp only [hxy, if_true, true_and] at hpair ⊢
      exact hpair.trans hrest
    · -- The flag stays set, whatever the rest of the values is like.
      have hswap : (first ++ y :: x :: rest).Perm (first ++ x :: y :: rest) :=
        (List.Perm.swap x y rest).append_left first
      have hrest := ih (first ++ [y]) 1 (by simp; omega) (by simpa using htame.of_perm hswap)
      simp only [List.append_assoc, List.singleton_append, List.length_append,
        List.length_singleton, ite_self] at hrest
      simp only [hxy, if_false, false_and] at hpair ⊢
      exact hpair.trans hrest

/-- One pass of the program is one pass over the list. -/
theorem pass (hlength : rest.length = 4) (htame : Tame settings (x :: rest)) :
    Part settings 130 10 (if (x :: rest).Pairwise (· ≤ ·) then 47 else 10) c c
      (State (x :: rest) pair flag)
      (State (bubble x rest) 4 (if (x :: rest).Pairwise (· ≤ ·) then 0 else 1)) := by
  have hpairs : Part settings (31 * rest.length) 13 44 c c (State (x :: rest) 0 0)
      (State (bubble x rest) 4 _) := finish_pass [] 0 (by simpa using hlength) htame
  rw [hlength] at hpairs
  have hstart : Part settings _ 10 13 c c (State (x :: rest) pair flag) _ := start_pass
  split_ifs at hpairs ⊢ with hsorted
  · exact (hstart.trans hpairs).trans (end_pass (keeps_of_inRange (by decide)))
  · exact (hstart.trans hpairs).trans (end_pass (keeps_of_inRange (by decide)))

/-- As long as the list is not sorted, each pass takes inversions out of it. -/
theorem passes (pair : Nat) (flag : Word) (hlength : values.length = 5)
    (htame : Tame settings values) :
    ∃ ys : List Word, ys.Perm values ∧ ys.Pairwise (· ≤ ·) ∧
      Part settings (130 * (inversions values + 1)) 10 47 c c (State values pair flag)
        (State ys 4 0) := by
  induction hn : inversions values using Nat.strong_induction_on generalizing values pair flag with
  | h n ih =>
    obtain ⟨x, rest, rfl⟩ := List.exists_cons_of_length_eq_add_one hlength
    have hpass : Part settings 130 10 _ c c (State (x :: rest) pair flag) _ :=
      pass (by simpa using hlength) htame
    have hperm := bubble_perm x rest
    split_ifs at hpass with hsorted
    · refine ⟨bubble x rest, hperm, ?_, hpass.mono (by omega)⟩
      rwa [bubble_of_sorted hsorted]
    · have hless := (inversions_bubble x rest).2 hsorted
      obtain ⟨ys, hys, hsorted', hpasses⟩ := ih (inversions (bubble x rest)) (by omega) 4 1
        (hperm.length_eq.trans hlength) (htame.of_perm hperm) rfl
      exact ⟨ys, hys.trans hperm, hsorted', (hpass.trans hpasses).mono (by omega)⟩

/-! ## Input and output -/

theorem read_text (hw : settings.Keeps .decimal w) (rest : List Word) :
    Channel.readNumber (settings.inputRange .decimal) (Buffer.ofNumbers (w :: rest)) =
      .ok w (.ofNumbers rest) := by
  have htrim : Text.trim w.text.toList = w.text.toList := by
    have hplain : ∀ c ∈ w.text.toList, Text.isBlank c = false :=
      fun c hc => (Numeral.plain_ofInt hc).isBlank
    simpa using Text.trim_append_blanks hplain (List.forall_mem_nil _)
  have hoffers : Channel.Offers (settings.inputRange .decimal) w.text w := by
    refine ⟨by rw [htrim, Word.read?_text], ?_⟩
    intro r hr
    unfold Settings.inputRange at hr
    split_ifs at hr with hwrap
    obtain rfl := Option.some.inj hr
    exact Range.contains_iff.mp (hw hwrap)
  exact Buffer.readFrom_eq_ok.mpr ⟨[], w.text, rest.map Word.text, rfl, by simp, hoffers, rfl⟩

theorem read_values (first : List Word) (hlength : first.length + rest.length = 5)
    (hkeeps : ∀ w ∈ rest, settings.Keeps .decimal w) :
    Part settings (2 * rest.length) (2 * first.length) 10 (.ofNumbers rest) {}
      (State first pair flag) (State (first ++ rest) pair flag) := by
  induction rest generalizing first with
  | nil =>
    have hfirst : first.length = 5 := hlength
    rw [hfirst, List.append_nil]
    exact .refl _ 10 _ _
  | cons w rest ih =>
    rw [List.length_cons] at hlength
    have hw := hkeeps w List.mem_cons_self
    have hread : Part settings 2 (2 * first.length) _ _ _ (State first pair flag) _ :=
      read_value (by omega) hw (read_text hw rest)
    have hrest := ih (first ++ [w]) (by simp; omega) fun v hv => hkeeps v (by simp [hv])
    rw [List.length_append, List.append_assoc] at hrest
    rw [List.length_cons, Nat.mul_succ, Nat.add_comm]
    exact hread.trans hrest

theorem print_values (first : List Word) (hlength : first.length + rest.length = 5)
    (hkeeps : ∀ w ∈ rest, settings.Keeps .decimal w) (output : String) :
    Part settings (2 * rest.length) (47 + 2 * first.length) 57 { output }
      { output := output ++ String.join (rest.map fun w => w.text ++ "\n") }
      (State (first ++ rest) pair flag) (State (first ++ rest) pair flag) := by
  induction rest generalizing first output with
  | nil =>
    have hfirst : first.length = 5 := hlength
    simp only [hfirst, List.map_nil, String.join_nil, String.append_empty]
    exact .refl _ 57 _ _
  | cons w rest ih =>
    rw [List.length_cons] at hlength
    have hw := hkeeps w List.mem_cons_self
    have hprint : Part settings 2 (47 + 2 * first.length) _ { output } _
        (State (first ++ w :: rest) pair flag) _ :=
      print_value (by simp) hw rfl
    have hrest := ih (first ++ [w]) (by simp; omega) (fun v hv => hkeeps v (by simp [hv]))
      (output ++ (w.text ++ "\n"))
    rw [List.length_append, List.append_assoc] at hrest
    rw [List.length_cons, Nat.mul_succ, Nat.add_comm, List.map_cons, String.join_cons,
      ← String.append_assoc]
    exact hprint.trans hrest

/-! ## The program -/

theorem whole_program (hlength : xs.length = 5) (htame : Tame settings xs) :
    ∃ ys : List Word, ys.Perm xs ∧ ys.Pairwise (· ≤ ·) ∧
      Part settings 3400 0 57 (.ofNumbers xs)
        { output := String.join (ys.map fun y => y.text ++ "\n") }
        (State [] 0 0) (State ys 4 0) := by
  have hread : Part settings _ 0 10 (.ofNumbers xs) {} (State [] 0 0) (State xs 0 0) :=
    read_values [] (by simpa using hlength) fun x hx => (htame x hx).1
  obtain ⟨ys, hperm, hsorted, hpasses⟩ := passes (c := {}) 0 0 hlength htame
  have hlength' : ys.length = 5 := hperm.length_eq.trans hlength
  have hprint : Part settings _ 47 57 {} _ (State ys 4 0) (State ys 4 0) :=
    print_values [] (by simpa using hlength') (fun y hy => (htame.of_perm hperm y hy).1) ""
  rw [String.empty_append] at hprint
  have hfew := inversions_le xs
  rw [hlength] at hfew
  exact ⟨ys, hperm, hsorted, ((hread.trans hpasses).trans hprint).mono (by omega)⟩

theorem state_image (append : Bool) :
    State [] 0 0 fun k => (image ++ if append then [0] else []).getD k 0 := by
  refine ⟨by simp, ?_, by simp, ?_, ?_⟩
  · -- What is appended is what the cells behind the program hold anyway.
    intro k _
    cases append <;> grind
  · cases append <;> rfl
  · cases append <;> rfl

theorem holds_values {find : String → Option Nat} {cells : Array Word} {content : Nat → Word}
    (hlabels : valueLabels.map find = (List.range 5).map fun k => some (63 + k))
    (hlength : ys.length = 5) (hstate : State ys pair flag content)
    (hcells : ∀ k < 100, cells[k]? = some (content k)) :
    List.Forall₂ (fun name y => ∃ index, find name = some index ∧ cells[index]? = some y)
      valueLabels ys := by
  refine List.forall₂_of_length_eq_of_get (by simp [hlength, valueLabels]) ?_
  intro k hk hk'
  have hfive : k < 5 := hk
  have hlabel := congrArg (fun indices => indices[k]?) hlabels
  simp only [List.getElem?_map, List.getElem?_eq_getElem hk, List.getElem?_range hfive,
    Option.map_some, Option.some.injEq] at hlabel
  refine ⟨63 + k, hlabel, ?_⟩
  rw [hcells _ (by omega), hstate.values k _ (List.getElem?_eq_getElem hk')]
  rfl

/-- The program ends with its five values in ascending order, and prints them so. Numbers that wrap
have to lie between -499 and 499, which keeps their differences. -/
theorem sorts_five_numbers (settings : Settings) (xs : List Word) (hlength : xs.length = 5)
    (hsmall : settings.wrapValues = true → ∀ x ∈ xs, -499 ≤ x.toInt ∧ x.toInt ≤ 499)
    (hfits : settings.wrapValues = false → ∀ x ∈ xs, ∀ y ∈ xs, Fits x y) :
    ∃ program m count m' ys,
      assemble .decimal settings source = .ok program ∧
      Machine.load .decimal settings (Buffer.ofNumbers xs) program.image = .ok m ∧
      Machine.run m = .ok count m' ∧ m'.status = .halted ∧
      ys.Perm xs ∧ ys.Pairwise (· ≤ ·) ∧
      List.Forall₂ (fun name y => ∃ index, program.labels.find? name = some index ∧
        m'.memory.cells[index]? = some y) valueLabels ys ∧
      m'.channel = { output := String.join (ys.map fun y => y.text ++ "\n") } := by
  obtain ⟨program, hassemble, himage, hlabels⟩ := assemble_source settings
  have hsize : program.image.length ≤ Architecture.decimal.memorySize := by
    rw [himage]
    cases settings.appendTrailingHalt <;> decide
  obtain ⟨m, hload⟩ := load_of_length_le settings (Buffer.ofNumbers xs) hsize
  obtain ⟨ys, hperm, hsorted, hpart⟩ := whole_program hlength (tame_of_bounds hsmall hfits)
  obtain ⟨acc, cells, hstate, hleads⟩ := hpart 0 (fun k => program.image.getD k 0)
    (himage ▸ state_image settings.appendTrailingHalt)
  have hzero : m.cycles = 0 := (Machine.sound_load hload).cycles
  obtain ⟨count, m', hrun, hhalted, hchannel, hcells⟩ :=
    (Machine.shows_load hload).run_of_leads hleads (hstate.fetches 57 (i := .halt 0) (by decide))
      (by rw [hzero]; decide)
  exact ⟨program, m, count, m', ys, hassemble, hload, hrun, hhalted, hperm, hsorted,
    holds_values hlabels (hperm.length_eq.trans hlength) hstate hcells, hchannel⟩

theorem sorts_five_numbers_near_and_far :
    (∃ program m count m', assemble .decimal {} source = .ok program ∧
      Machine.load .decimal {} (Buffer.ofNumbers [499, -2, 0, -499, -2]) program.image = .ok m ∧
      Machine.run m = .ok count m' ∧ m'.status = .halted ∧
      m'.channel.output = "-499\n-2\n-2\n0\n499\n") ∧
    ∃ program m count m', assemble .decimal { wrapValues := false } source = .ok program ∧
      Machine.load .decimal { wrapValues := false }
        (Buffer.ofNumbers [9223372036854775807, 5, 0, 9223372036854775806, 1]) program.image =
          .ok m ∧
      Machine.run m = .ok count m' ∧ m'.status = .halted ∧
      m'.channel.output = "0\n1\n5\n9223372036854775806\n9223372036854775807\n" := by
  constructor
  · have hsmall : ∀ x ∈ ([499, -2, 0, -499, -2] : List Word), -499 ≤ x.toInt ∧ x.toInt ≤ 499 := by
      simp only [List.forall_mem_cons, List.not_mem_nil, false_implies, implies_true, and_true]
      decide
    obtain ⟨program, m, count, m', ys, hassemble, hload, hrun, hhalted, hperm, hsorted, -,
      hchannel⟩ := sorts_five_numbers {} _ rfl (fun _ => hsmall) (fun h => by cases h)
    have hys : ys = [-499, -2, -2, 0, 499] :=
      List.Perm.eq_of_pairwise (fun _ _ _ _ => Int64.le_antisymm) hsorted (by decide)
        (hperm.trans (by decide))
    refine ⟨program, m, count, m', hassemble, hload, hrun, hhalted, ?_⟩
    rw [hchannel, hys]
    rfl
  · have hfits : ∀ x ∈ ([9223372036854775807, 5, 0, 9223372036854775806, 1] : List Word),
        ∀ y ∈ ([9223372036854775807, 5, 0, 9223372036854775806, 1] : List Word), Fits x y := by
      simp only [List.forall_mem_cons, List.not_mem_nil, false_implies, implies_true, and_true]
      decide
    obtain ⟨program, m, count, m', ys, hassemble, hload, hrun, hhalted, hperm, hsorted, -,
      hchannel⟩ := sorts_five_numbers { wrapValues := false } _ rfl (fun h => by cases h)
        (fun _ => hfits)
    have hys : ys = [0, 1, 5, 9223372036854775806, 9223372036854775807] :=
      List.Perm.eq_of_pairwise (fun _ _ _ _ => Int64.le_antisymm) hsorted (by decide)
        (hperm.trans (by decide))
    refine ⟨program, m, count, m', hassemble, hload, hrun, hhalted, ?_⟩
    rw [hchannel, hys]
    rfl

end LittleMan.Sorting
