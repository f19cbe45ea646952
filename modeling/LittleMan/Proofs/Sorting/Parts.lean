import Mathlib.Tactic.Common
import LittleMan.Channel.Buffer
import LittleMan.Proofs.Machine.Views
import LittleMan.Proofs.Sorting.Program

/-!
# The parts of the sorting program

What each part of the program makes of its variables. The program reads the values (from cell 0),
starts a pass (10), makes the instructions for a pair (13), puts the pair in order (28), goes to the
next pair (38), ends the pass (44), and prints the values when it is done (47) before it halts (57).
Behind the templates (58) stand the values (63), the value that is kept aside during an exchange
(68), the pair (69) and the flag (70), and the constants one, four and zero (71).
-/

namespace LittleMan.Sorting

open View (Leads Fetches)

variable {values first rest : List Word} {pair k n j : Nat} {flag w : Word} {cells : Nat → Word}

/-! ## The variables -/

/-- The cells of the instructions that are made for a pair, in the order in which they are made. -/
def made : List Nat := [28, 30, 32, 33, 35]

def written : List Nat := made ++ [63, 64, 65, 66, 67, 68, 69, 70]

/-- The program has an instruction at a place that it does not write to. -/
def Code (k : Nat) (i : Instruction) : Prop :=
  k ∉ written ∧ k < 100 ∧ Instruction.decode .decimal (image.getD k 0) = i

instance (k : Nat) (i : Instruction) : Decidable (Code k i) := inferInstanceAs (Decidable (_ ∧ _))

/-- What the cells hold: the program, the first of the values, which pair is next, and whether two
values were exchanged in this pass. -/
structure State (values : List Word) (pair : Nat) (flag : Word) (cells : Nat → Word) : Prop where
  fits : values.length ≤ 5
  code : ∀ k, k ∉ written → cells k = image.getD k 0
  values : ∀ k w, values[k]? = some w → cells (63 + k) = w
  pair : cells 69 = .ofNat pair
  flag : cells 70 = flag

namespace State

theorem lt_five (h : State values pair flag cells) (hk : values[k]? = some w) : k < 5 := by
  obtain ⟨hlt, -⟩ := List.getElem?_eq_some_iff.mp hk
  exact Nat.lt_of_lt_of_le hlt h.fits

theorem pair_bounds {x y : Word} (h : State (first ++ x :: y :: rest) pair flag cells) :
    first.length + rest.length < 4 ∧ 63 + first.length < 100 ∧
      63 + (first.length + 1) < 100 := by
  have hfits := h.fits
  simp only [List.length_append, List.length_cons] at hfits
  omega

theorem update_code (h : State values pair flag cells) (hn : n ∈ written) (w : Word)
    (hk : k ∉ written) : Function.update cells n w k = image.getD k 0 := by
  rw [Function.update_of_ne (by rintro rfl; exact hk hn), h.code k hk]

theorem update_values {v : Word} (h : State values pair flag cells) (hn : n < 63 ∨ 68 ≤ n)
    (w : Word) (hv : values[k]? = some v) : Function.update cells n w (63 + k) = v := by
  have hk := h.lt_five hv
  rw [Function.update_of_ne (by omega), h.values k v hv]

theorem update_scratch (h : State values pair flag cells) (hn : n ∈ 68 :: made) (w : Word) :
    State values pair flag (Function.update cells n w) := by
  have hmem : n ∈ written ∧ (n < 63 ∨ n = 68) := by
    revert n
    decide
  refine ⟨h.fits, fun _ => h.update_code hmem.1 w, fun _ _ => h.update_values (by omega) w, ?_, ?_⟩
  · rw [Function.update_of_ne (by omega), h.pair]
  · rw [Function.update_of_ne (by omega), h.flag]

theorem update_pair (h : State values pair flag cells) (hw : w = .ofNat n) :
    State values n flag (Function.update cells 69 w) := by
  refine ⟨h.fits, fun _ => h.update_code (by decide) w, fun _ _ => h.update_values (by decide) w,
    ?_, ?_⟩
  · rw [Function.update_self, hw]
  · rw [Function.update_of_ne (by decide), h.flag]

theorem update_flag {flag' : Word} (h : State values pair flag cells) (hw : w = flag') :
    State values pair flag' (Function.update cells 70 w) := by
  refine ⟨h.fits, fun _ => h.update_code (by decide) w, fun _ _ => h.update_values (by decide) w,
    ?_, ?_⟩
  · rw [Function.update_of_ne (by decide), h.pair]
  · rw [Function.update_self, hw]

theorem update_value (first old : List Word) (h : State (first ++ old) pair flag cells)
    (hfits : first.length + (old.tail.length + 1) ≤ 5) (w : Word) :
    State (first ++ w :: old.tail) pair flag (Function.update cells (63 + first.length) w) := by
  have hlength : first.length < 5 := by omega
  have hmem : ∀ j < 5, 63 + j ∈ written := by decide
  refine ⟨by simpa using hfits, fun _ => h.update_code (hmem _ hlength) w, ?_, ?_, ?_⟩
  · intro k v hv
    by_cases hk : k = first.length
    · subst hk
      simpa using hv
    · rw [Function.update_of_ne (by omega)]
      apply h.values
      grind
  · rw [Function.update_of_ne (by omega), h.pair]
  · rw [Function.update_of_ne (by omega), h.flag]

theorem fetches {acc : Word} {c : Buffer} (h : State values pair flag cells) (k : Nat)
    {i : Instruction} (hcode : Code k i) : Fetches .decimal ⟨acc, k, cells, c⟩ i := by
  obtain ⟨hk, hlt, hi⟩ := hcode
  rw [← h.code k hk] at hi
  exact ⟨hlt, hi⟩

end State

theorem keeps_of_inRange {settings : Settings} (h : Architecture.decimal.inRange w = true) :
    settings.Keeps .decimal w := fun _ => h

/-! ## Parts of a program -/

/-- In so many steps the program gets from one place to another and from one state of the channel
to another, and cells that satisfy one condition then satisfy the other. -/
def Part (settings : Settings) (n ip ip' : Nat) (c c' : Buffer) (P Q : (Nat → Word) → Prop) :
    Prop :=
  ∀ acc cells, P cells → ∃ acc' cells', Q cells' ∧
    Leads .decimal settings n ⟨acc, ip, cells, c⟩ ⟨acc', ip', cells', c'⟩

namespace Part

variable {settings : Settings} {ip ip₁ ip' : Nat} {c c₁ c' : Buffer} {P Q R : (Nat → Word) → Prop}

theorem refl (n ip : Nat) (c : Buffer) (P : (Nat → Word) → Prop) : Part settings n ip ip c c P P :=
  fun acc cells h => ⟨acc, cells, h, .refl n _⟩

theorem trans (h : Part settings n ip ip₁ c c₁ P R) (h' : Part settings k ip₁ ip' c₁ c' R Q) :
    Part settings (n + k) ip ip' c c' P Q := by
  intro acc cells hP
  obtain ⟨acc₁, cells₁, hR, hleads⟩ := h acc cells hP
  obtain ⟨acc', cells', hQ, hleads'⟩ := h' acc₁ cells₁ hR
  exact ⟨acc', cells', hQ, hleads.trans hleads'⟩

theorem mono (h : Part settings n ip ip' c c' P Q) (hle : n ≤ k) :
    Part settings k ip ip' c c' P Q := by
  intro acc cells hP
  obtain ⟨acc', cells', hQ, hleads⟩ := h acc cells hP
  exact ⟨acc', cells', hQ, hleads.mono hle⟩

end Part

variable {settings : Settings} {c c' : Buffer}

theorem start_pass : Part settings 3 10 13 c c (State values pair flag) (State values 0 0) := by
  intro acc cells h
  have h₁ := h.update_flag (w := 0) rfl
  have h₂ := h₁.update_pair (w := 0) (n := 0) rfl
  have hkeeps : settings.Keeps .decimal 0 := keeps_of_inRange (by decide)
  exact ⟨_, _, h₂,
    .next (.load (h.fetches 10 (by decide)) (by decide) (h.code 73 (by decide)) hkeeps) <|
    .next (.store (h.fetches 11 (by decide)) (by decide) hkeeps) <|
    .next (.store (h₁.fetches 12 (by decide)) (by decide) hkeeps) <| .refl 0 _⟩

/-! ## Making the instructions -/

/-- The first instructions that are made for a pair are in their cells. -/
def Made (pair count : Nat) (cells : Nat → Word) : Prop :=
  ∀ j < count, cells (made.getD j 0) = .ofNat pair + image.getD (58 + j) 0

theorem made_places : ∀ j < 5, made.getD j 0 ∈ made ∧ made.getD j 0 < 100 ∧
    ∀ i < j, made.getD i 0 ≠ made.getD j 0 := by
  decide

theorem code_make : ∀ j < 5, Code (13 + 3 * j) (.load (.ofNat 69)) ∧
    Code (13 + 3 * j + 1) (.add (.ofNat (58 + j))) ∧
    Code (13 + 3 * j + 2) (.store (.ofNat (made.getD j 0))) ∧ 58 + j ∉ written := by
  decide

theorem inRange_pair : ∀ p < 4, Architecture.decimal.inRange (.ofNat p) = true ∧
    ∀ j < 5, Architecture.decimal.inRange (.ofNat p + image.getD (58 + j) 0) = true := by
  decide

theorem make_instruction (hpair : pair < 4) (hj : j < 5) :
    Part settings 3 (13 + 3 * j) (13 + 3 * (j + 1)) c c
      (fun cells => State values pair flag cells ∧ Made pair j cells)
      (fun cells => State values pair flag cells ∧ Made pair (j + 1) cells) := by
  rintro acc cells ⟨h, hmade⟩
  obtain ⟨hload, hadd, hstore, htemplate⟩ := code_make j hj
  obtain ⟨hmem, hlt, hne⟩ := made_places j hj
  obtain ⟨hrange, hranges⟩ := inRange_pair pair hpair
  have hkeeps : settings.Keeps .decimal _ := keeps_of_inRange (hranges j hj)
  refine ⟨_, _, ⟨h.update_scratch (List.mem_cons_of_mem _ hmem) _, ?_⟩,
    .next (.load (h.fetches _ hload) (by decide) h.pair (keeps_of_inRange hrange)) <|
    .next (.add (h.fetches _ hadd) (by change 58 + j < 100; omega) (h.code _ htemplate) hkeeps) <|
    .next (.store (h.fetches _ hstore) hlt hkeeps) <| .refl 0 _⟩
  intro i hi
  by_cases heq : i = j
  · rw [heq, Function.update_self]
  · rw [Function.update_of_ne (hne i (by omega)), hmade i (by omega)]

theorem make_instructions (hpair : pair < 4) :
    Part settings 15 13 28 c c (State values pair flag)
      (fun cells => State values pair flag cells ∧ Made pair 5 cells) := by
  have hsteps : ∀ j ≤ 5, Part settings (3 * j) 13 (13 + 3 * j) c c (State values pair flag)
      (fun cells => State values pair flag cells ∧ Made pair j cells) := by
    intro j hj
    induction j with
    | zero => exact fun acc cells h => ⟨acc, cells, ⟨h, by simp [Made]⟩, .refl 0 _⟩
    | succ j ih => exact (ih (by omega)).trans (make_instruction hpair hj)
  exact hsteps 5 (by decide)

/-! ## A pair -/

def madeFor (pair : Nat) : List Instruction :=
  [.load (.ofNat (63 + (pair + 1))), .subtract (.ofNat (63 + pair)), .load (.ofNat (63 + pair)),
    .store (.ofNat (63 + (pair + 1))), .store (.ofNat (63 + pair))]

theorem decode_madeFor : ∀ p < 4, ∀ j < 5,
    Instruction.decode .decimal (.ofNat p + image.getD (58 + j) 0) =
      (madeFor p).getD j (.halt 0) := by
  decide

theorem Made.fetches {acc : Word} (h : Made pair 5 cells) (hpair : pair < 4) (j : Nat)
    (hj : j < 5) :
    Fetches .decimal ⟨acc, made.getD j 0, cells, c⟩ ((madeFor pair).getD j (.halt 0)) := by
  refine ⟨(made_places j hj).2.1, ?_⟩
  rw [← decode_madeFor pair hpair j hj, ← h j hj]

theorem Made.update (h : Made pair 5 cells) (hn : n ∉ made) (w : Word) :
    Made pair 5 (Function.update cells n w) := by
  intro j hj
  have hne : made.getD j 0 ≠ n := by
    rintro rfl
    exact hn (made_places j hj).1
  rw [Function.update_of_ne hne, h j hj]

/-- The values are kept as they are, and so are their differences, which tell their order. -/
def Tame (settings : Settings) (values : List Word) : Prop :=
  ∀ x ∈ values, settings.Keeps .decimal x ∧
    ∀ y ∈ values, settings.Keeps .decimal (y - x) ∧ (0 ≤ y - x ↔ x ≤ y)

theorem exchange_pair {x y : Word} (hx : settings.Keeps .decimal x)
    (hy : settings.Keeps .decimal y) :
    Part settings 6 32 38 c c
      (fun cells => State (first ++ x :: y :: rest) first.length flag cells ∧
        Made first.length 5 cells ∧ cells 68 = y)
      (State (first ++ y :: x :: rest) first.length 1) := by
  rintro acc cells ⟨h, hmade, haside⟩
  obtain ⟨hfits, hn, hn'⟩ := h.pair_bounds
  have hpair : first.length < 4 := by omega
  have hmem : ∀ p < 4, 63 + (p + 1) ∉ made := by decide
  have h₁ : State (first ++ x :: x :: rest) first.length flag
      (Function.update cells (63 + (first.length + 1)) x) := by
    simpa using State.update_value (first ++ [x]) (y :: rest) (by simpa using h)
      (by simp; omega) x
  have hm₁ := hmade.update (hmem first.length hpair) x
  have haside₁ : Function.update cells (63 + (first.length + 1)) x 68 = y := by
    rw [Function.update_of_ne (by omega), haside]
  have h₂ := h₁.update_value first (x :: x :: rest) (by simp; omega) y
  have h₃ := h₂.update_flag (w := 1) rfl
  have hone : settings.Keeps .decimal 1 := keeps_of_inRange (by decide)
  exact ⟨_, _, h₃,
    .next (.load (hmade.fetches hpair 2 (by decide)) hn (h.values _ x (by simp)) hx) <|
    .next (.store (hmade.fetches hpair 3 (by decide)) hn' hx) <|
    .next (.load (h₁.fetches 34 (by decide)) (by decide) haside₁ hy) <|
    .next (.store (hm₁.fetches hpair 4 (by decide)) hn hy) <|
    .next (.load (h₂.fetches 36 (by decide)) (by decide) (h₂.code 71 (by decide)) hone) <|
    .next (.store (h₂.fetches 37 (by decide)) (by decide) hone) <| .refl 0 _⟩

theorem order_pair {x y : Word} (htame : Tame settings (first ++ x :: y :: rest)) :
    Part settings 10 28 38 c c
      (fun cells => State (first ++ x :: y :: rest) first.length flag cells ∧
        Made first.length 5 cells)
      (State (first ++ if x ≤ y then x :: y :: rest else y :: x :: rest) first.length
        (if x ≤ y then flag else 1)) := by
  rintro acc cells ⟨h, hmade⟩
  obtain ⟨hfits, hn, hn'⟩ := h.pair_bounds
  have hpair : first.length < 4 := by omega
  obtain ⟨hkx, hdiff⟩ := htame x (by simp)
  obtain ⟨hkdiff, hsign⟩ := hdiff y (by simp)
  have hky := (htame y (by simp)).1
  have h₁ := h.update_scratch (n := 68) (by decide) y
  have hm₁ := hmade.update (n := 68) (by decide) y
  have hcompare : Leads .decimal settings 3 ⟨acc, 28, cells, c⟩
      ⟨y - x, 31, Function.update cells 68 y, c⟩ :=
    .next (.load (hmade.fetches hpair 0 (by decide)) hn' (h.values _ y (by simp)) hky) <|
    .next (.store (h.fetches 29 (by decide)) (by decide) hky) <|
    .next (.subtract (hm₁.fetches hpair 1 (by decide)) hn (h₁.values _ x (by simp)) hkdiff) <|
    .refl 0 _
  split_ifs with hle
  · exact ⟨_, _, h₁, hcompare.trans <|
      .next (.positive (h₁.fetches 31 (by decide)) (by decide) (hsign.mpr hle)) <| .refl 6 _⟩
  · obtain ⟨acc', cells', h', hleads⟩ := exchange_pair (c := c) hkx hky (y - x)
      (Function.update cells 68 y) ⟨h₁, hm₁, Function.update_self ..⟩
    exact ⟨acc', cells', h', hcompare.trans <|
      .next (.negative (n := 38) (h₁.fetches 31 (by decide)) (by decide) (mt hsign.mp hle)) hleads⟩

theorem next_pair_facts : ∀ p < 4,
    Architecture.decimal.inRange (.ofNat p + 1) = true ∧
    Architecture.decimal.inRange (.ofNat p + 1 - 4) = true ∧
    Int64.ofNat p + 1 = .ofNat (p + 1) ∧ (Int64.ofNat p + 1 - 4 = 0 ↔ p + 1 = 4) := by
  decide

theorem next_pair (hpair : pair < 4) :
    Part settings 6 38 (if pair + 1 = 4 then 44 else 13) c c (State values pair flag)
      (State values (pair + 1) flag) := by
  intro acc cells h
  have hp : settings.Keeps .decimal _ := keeps_of_inRange (inRange_pair pair hpair).1
  obtain ⟨hrange, hrange', hsucc, hlast⟩ := next_pair_facts pair hpair
  have hsum : settings.Keeps .decimal _ := keeps_of_inRange hrange
  have hrest : settings.Keeps .decimal _ := keeps_of_inRange hrange'
  have h' := h.update_pair hsucc
  have hone : cells 71 = 1 := h.code 71 (by decide)
  have hfour : Function.update cells 69 (.ofNat pair + 1) 72 = 4 := h'.code 72 (by decide)
  have hadvance : Leads .decimal settings 4 ⟨acc, 38, cells, c⟩
      ⟨.ofNat pair + 1 - 4, 42, Function.update cells 69 (.ofNat pair + 1), c⟩ :=
    .next (.load (h.fetches 38 (by decide)) (by decide) h.pair hp) <|
    .next (.add (h.fetches 39 (by decide)) (by decide) hone hsum) <|
    .next (.store (h.fetches 40 (by decide)) (by decide) hsum) <|
    .next (.subtract (n := 72) (h'.fetches 41 (by decide)) (by decide) hfour hrest) <| .refl 0 _
  split_ifs with hend
  · exact ⟨_, _, h', hadvance.trans <|
      .next (.zero (h'.fetches 42 (by decide)) (by decide) (hlast.mpr hend)) <| .refl 1 _⟩
  · exact ⟨_, _, h', hadvance.trans <|
      .next (.nonzero (n := 44) (h'.fetches 42 (by decide)) (by decide) (mt hlast.mp hend)) <|
      .next (.branch (h'.fetches 43 (by decide)) (by decide)) <| .refl 0 _⟩

theorem end_pass (hflag : settings.Keeps .decimal flag) :
    Part settings 3 44 (if flag = 0 then 47 else 10) c c (State values pair flag)
      (State values pair flag) := by
  intro acc cells h
  have hload : View.Next .decimal settings ⟨acc, 44, cells, c⟩ ⟨flag, 45, cells, c⟩ :=
    .load (h.fetches 44 (by decide)) (by decide) h.flag hflag
  split_ifs with hzero
  · exact ⟨_, _, h, .next hload <|
      .next (.zero (h.fetches 45 (by decide)) (by decide) hzero) <| .refl 1 _⟩
  · exact ⟨_, _, h, .next hload <|
      .next (.nonzero (n := 47) (h.fetches 45 (by decide)) (by decide) hzero) <|
      .next (.branch (h.fetches 46 (by decide)) (by decide)) <| .refl 0 _⟩

/-! ## Input and output -/

theorem code_transfer : ∀ j < 5,
    (Code (2 * j) (.transfer .input) ∧ Code (2 * j + 1) (.store (.ofNat (63 + j)))) ∧
    Code (47 + 2 * j) (.load (.ofNat (63 + j))) ∧ Code (47 + 2 * j + 1) (.transfer .output) := by
  decide

theorem read_value (hlength : values.length < 5) (hw : settings.Keeps .decimal w)
    (hread : Channel.readNumber (settings.inputRange .decimal) c = .ok w c') :
    Part settings 2 (2 * values.length) (2 * (values.length + 1)) c c' (State values pair flag)
      (State (values ++ [w]) pair flag) := by
  intro acc cells h
  obtain ⟨⟨hinput, hstore⟩, -⟩ := code_transfer values.length hlength
  have h' : State (values ++ [w]) pair flag (Function.update cells (63 + values.length) w) :=
    State.update_value values [] (by simpa using h) hlength w
  exact ⟨_, _, h',
    .next (.input (h.fetches _ hinput) hread hw) <|
    .next (.store (h.fetches _ hstore) (by change 63 + values.length < 100; omega) hw) <|
    .refl 0 _⟩

theorem print_value (hj : values[j]? = some w) (hw : settings.Keeps .decimal w)
    (hwrite : Channel.writeNumber w c = .ok () c') :
    Part settings 2 (47 + 2 * j) (47 + 2 * (j + 1)) c c' (State values pair flag)
      (State values pair flag) := by
  intro acc cells h
  have hlt := h.lt_five hj
  obtain ⟨-, hload, houtput⟩ := code_transfer j hlt
  exact ⟨_, _, h,
    .next (.load (h.fetches _ hload) (by change 63 + j < 100; omega) (h.values j w hj) hw) <|
    .next (.output (h.fetches _ houtput) hwrite) <| .refl 0 _⟩

end LittleMan.Sorting
