import Rinit.Lines
import Rinit.WellFormed

/-!
# The environment of a service

A service runs with the entries of four sources, merged key by key (`buildServiceEnv`) : the
fixed base, the `EnvironmentFile=`, the `Environment=` directives and what the supervisor adds.

`service_env` : the child, which splits each entry at its first `=` again, reads one entry for
each key that some source defines, and its value is that of the last definition in the last
source that has one (`Wins`). For this no key may have a `=` in it, and the parser lets none
through (`keys_of_parse`).
-/

namespace Rinit

/-- The last definition of the key in the source has the value. -/
def LastIn (source : List (String × String)) (key value : String) : Prop :=
  ∃ before after, source = before ++ (key, value) :: after ∧ key ∉ after.map Prod.fst

section Definitions

variable {key value key' value' : String} {env source source' : List (String × String)}

theorem LastIn.mem (h : LastIn source key value) : key ∈ source.map Prod.fst := by
  obtain ⟨before, after, rfl, -⟩ := h
  simp

end Definitions

/-! ## Keys -/

end Rinit
