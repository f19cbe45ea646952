import Mathlib.Tactic.Common
import LittleMan.Proofs.Assembly.Stages

/-!
# Labels replaced

Resolving goes through the entries in order and puts the index of a label in its place. It stops at
the first label that stands for nothing, so the draft it leaves behind is resolved up to there and
untouched from there on. A second time it finds the same label, or none at all.
-/

namespace LittleMan.Assembly

/-- An operand with the index of a label in its place. A label that stands for nothing stays. -/
def Operand.replaced (labels : LabelTable) : Operand → Operand
  | .number w => .number w
  | .label name =>
    match labels.find? name with
    | some index => .number (Int64.ofNat index)
    | none => .label name

namespace Entry

variable {labels : LabelTable} {e e' : Entry}

def replaced (labels : LabelTable) (e : Entry) : Entry :=
  { e with operand := e.operand.map (Operand.replaced labels) }

def Bound (labels : LabelTable) (e : Entry) : Prop :=
  ∀ name, e.operand = some (.label name) → ∃ index, labels.find? name = some index

theorem replaced_replaced (labels : LabelTable) (e : Entry) :
    (e.replaced labels).replaced labels = e.replaced labels := by
  obtain ⟨line, mnemonic, operand, names⟩ := e
  rcases operand with _ | w | name
  · rfl
  · rfl
  · cases h : labels.find? name <;> simp [replaced, Operand.replaced, h]

theorem Bound.replaced (h : e.Bound labels) : (e.replaced labels).Bound labels := by
  obtain ⟨line, mnemonic, operand, names⟩ := e
  rcases operand with _ | w | name
  · exact h
  · exact h
  · obtain ⟨index, hindex⟩ := h name rfl
    simp [Bound, Entry.replaced, Operand.replaced, hindex]

end Entry

namespace Draft

variable {labels : LabelTable} {e e' : Entry} {err : Error} {d : Draft}

/-! ## One entry -/

theorem resolveEntry_eq_ok :
    resolveEntry labels e = .ok e' ↔ e.Bound labels ∧ e' = e.replaced labels := by
  obtain ⟨line, mnemonic, operand, names⟩ := e
  rcases operand with _ | w | name
  · simp [resolveEntry, Entry.Bound, Entry.replaced, eq_comm]
  · simp [resolveEntry, Entry.Bound, Entry.replaced, Operand.replaced, eq_comm]
  · cases h : labels.find? name <;>
      simp [resolveEntry, Entry.Bound, Entry.replaced, Operand.replaced, h, eq_comm]

theorem resolveEntry_eq_error :
    resolveEntry labels e = .error err ↔
      ∃ name, e.operand = some (.label name) ∧ labels.find? name = none ∧
        err = .flaw e.line (.undefinedLabel name) := by
  obtain ⟨line, mnemonic, operand, names⟩ := e
  rcases operand with _ | w | name
  · simp [resolveEntry]
  · simp [resolveEntry]
  · cases h : labels.find? name <;> simp [resolveEntry, h, eq_comm]

/-! ## All entries -/

theorem resolveFrom_append {before : List Entry} (done : Array Entry) (rest : List Entry)
    (h : ∀ b ∈ before, b.Bound labels) :
    resolveFrom labels done (before ++ rest) =
      resolveFrom labels (done ++ before.map (Entry.replaced labels)) rest := by
  induction before generalizing done with
  | nil => simp
  | cons b before ih =>
    have hb : resolveEntry labels b = .ok (b.replaced labels) :=
      resolveEntry_eq_ok.mpr ⟨h b List.mem_cons_self, rfl⟩
    rw [List.cons_append, resolveFrom, hb]
    simp only
    rw [ih _ fun b' hb' => h b' (List.mem_cons_of_mem b hb')]
    simp

theorem resolve_of_bound (h : ∀ e ∈ d.entries.toList, e.Bound d.labels) :
    resolve d = .ok () { d with entries := d.entries.map (Entry.replaced d.labels) } := by
  have hpass := resolveFrom_append #[] [] h
  rw [List.append_nil] at hpass
  unfold resolve
  rw [hpass]
  simp [resolveFrom, ← Array.toList_map]

theorem resolve_of_split {before after : List Entry} {name : String}
    (hd : d.entries.toList = before ++ e :: after) (hbefore : ∀ b ∈ before, b.Bound d.labels)
    (hname : e.operand = some (.label name)) (hnone : d.labels.find? name = none) :
    resolve d = .error (.flaw e.line (.undefinedLabel name))
      { d with entries := (before.map (Entry.replaced d.labels) ++ e :: after).toArray } := by
  have he : resolveEntry d.labels e = .error (.flaw e.line (.undefinedLabel name)) :=
    resolveEntry_eq_error.mpr ⟨name, hname, hnone, rfl⟩
  unfold resolve
  rw [hd, resolveFrom_append #[] _ hbefore, resolveFrom, he]
  simp

theorem bound_or_split (labels : LabelTable) (entries : List Entry) :
    (∀ e ∈ entries, e.Bound labels) ∨
      ∃ before e after name, entries = before ++ e :: after ∧ (∀ b ∈ before, b.Bound labels) ∧
        e.operand = some (.label name) ∧ labels.find? name = none := by
  have hpass := mapM_outcome (resolveEntry labels) entries
  cases hresult : entries.mapM (resolveEntry labels) with
  | ok out =>
    rw [hresult] at hpass
    left
    intro e he
    obtain ⟨e', he'⟩ := exists_of_forall₂ hpass he
    exact (resolveEntry_eq_ok.mp he').1
  | error err =>
    rw [hresult] at hpass
    obtain ⟨before, e, after, hentries, hbefore, he⟩ := hpass
    obtain ⟨name, hname, hnone, -⟩ := resolveEntry_eq_error.mp he
    right
    refine ⟨before, e, after, name, hentries, ?_, hname, hnone⟩
    intro b hb
    obtain ⟨b', hb'⟩ := hbefore b hb
    exact (resolveEntry_eq_ok.mp hb').1

/-- Resolving replaces labels up to the first that stands for nothing, and changes nothing else.
Doing it again changes nothing more. -/
theorem resolve_substitutes (d : Draft) :
    ((∀ e ∈ d.entries.toList, e.Bound d.labels) →
      resolve d = .ok () { d with entries := d.entries.map (Entry.replaced d.labels) }) ∧
    (¬ (∀ e ∈ d.entries.toList, e.Bound d.labels) →
      ∃ before e after name,
        d.entries.toList = before ++ e :: after ∧
        (∀ b ∈ before, b.Bound d.labels) ∧
        e.operand = some (.label name) ∧ d.labels.find? name = none ∧
        resolve d = .error (.flaw e.line (.undefinedLabel name))
          { d with entries := (before.map (Entry.replaced d.labels) ++ e :: after).toArray }) ∧
    match resolve d with
    | .ok () d' => resolve d' = .ok () d'
    | .error err d' => resolve d' = .error err d' := by
  rcases bound_or_split d.labels d.entries.toList with
    hbound | ⟨before, e, after, name, hd, hbefore, hname, hnone⟩
  · refine ⟨fun _ => resolve_of_bound hbound, fun h => absurd hbound h, ?_⟩
    rw [resolve_of_bound hbound]
    simp only
    rw [resolve_of_bound]
    · simp [Entry.replaced_replaced]
    · intro e he
      obtain ⟨source, hsource, rfl⟩ :
          ∃ source ∈ d.entries.toList, source.replaced d.labels = e := by
        simpa using he
      exact (hbound source hsource).replaced
  · have hstop := resolve_of_split hd hbefore hname hnone
    refine ⟨?_, fun _ => ⟨before, e, after, name, hd, hbefore, hname, hnone, hstop⟩, ?_⟩
    · intro hbound
      obtain ⟨index, hindex⟩ := hbound e (by simp [hd]) name hname
      simp [hnone] at hindex
    · have hagain : ∀ b ∈ before.map (Entry.replaced d.labels), b.Bound d.labels := by
        intro b hb
        obtain ⟨source, hsource, rfl⟩ := List.mem_map.mp hb
        exact (hbefore source hsource).replaced
      rw [hstop]
      refine (resolve_of_split (d := { d with entries := List.toArray _ }) rfl hagain hname
        hnone).trans ?_
      simp [Entry.replaced_replaced]

end Draft

end LittleMan.Assembly
