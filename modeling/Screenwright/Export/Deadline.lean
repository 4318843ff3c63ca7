import Screenwright.Export.Error

namespace Screenwright.Export

/-- How many whole seconds have passed when a unit of work begins. -/
abbrev Clock := Nat → Nat

/-- A clock by which nothing takes a second. -/
def Clock.still : Clock := fun _ => 0

/-- A limit in seconds, if there is one, under a clock. It is checked between units of work and not
within one. -/
structure Deadline where
  limit : Option UInt64 := none
  clock : Clock := .still

namespace Deadline

/-- A limit that has been reached is exceeded, so one of zero is so from the beginning. -/
def check (d : Deadline) (unit : Nat) : Except ExportError Unit :=
  match d.limit with
  | some limit => if limit.toNat ≤ d.clock unit then .error (.timedOut limit) else .ok ()
  | none => .ok ()

def after (d : Deadline) (units : Nat) : Deadline := ⟨d.limit, fun n => d.clock (units + n)⟩

end Deadline
end Screenwright.Export
