import Mathlib.Data.List.Nodup
import Mathlib.Tactic.Common
import LittleMan.Error
import LittleMan.Proofs.Json.Exact

/-!
# Settings in JSON

An object describes settings if its members are options, each named once and set to a truth value.
The options that are not named have their defaults. No other objects are accepted, and it matters
neither in which order the members stand nor how the text is laid out.
-/

namespace LittleMan.Settings

open Json (Quoted Value Spells)

def options : List (String × (Settings → Bool)) :=
  [("wrap_memory", wrapMemory), ("wrap_values", wrapValues), ("extensions", extensions),
    ("append_trailing_halt", appendTrailingHalt)]

structure Acceptable (ms : List (Quoted × Value)) : Prop where
  distinct : (ms.map Prod.fst).Nodup
  known : ∀ m ∈ ms, ∃ o ∈ options, m.1 = .text o.1
  bool : ∀ m ∈ ms, ∃ b, m.2 = .bool b

/-- The settings are the defaults, except for the options that the members name. -/
structure Overrides (ms : List (Quoted × Value)) (s : Settings) : Prop where
  named : ∀ o ∈ options, ∀ b, (.text o.1, .bool b) ∈ ms → o.2 s = b
  others : ∀ o ∈ options, (∀ m ∈ ms, m.1 ≠ .text o.1) → o.2 s = o.2 {}

variable {ms ms' : List (Quoted × Value)} {s : Settings}

/-! ## Members -/

theorem Acceptable.of_perm (h : Acceptable ms) (hms : ms.Perm ms') : Acceptable ms' where
  distinct := (hms.map Prod.fst).nodup_iff.mp h.distinct
  known m hm := h.known m (hms.mem_iff.mpr hm)
  bool m hm := h.bool m (hms.mem_iff.mpr hm)

theorem Overrides.of_perm (h : Overrides ms s) (hms : ms.Perm ms') : Overrides ms' s where
  named o ho b hb := h.named o ho b (hms.mem_iff.mpr hb)
  others o ho hnone := h.others o ho fun m hm => hnone m (hms.mem_iff.mp hm)

end LittleMan.Settings
