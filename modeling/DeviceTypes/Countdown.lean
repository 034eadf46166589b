/-!
# Countdowns

The total of a walk that goes down one level at a time and adds up the
levels left: `n + (n - 1) + … + 0`.
-/

namespace DeviceTypes

/-- The sum of all levels from `depth` down to zero. -/
def countdown (depth : Nat) : Nat := depth * (depth + 1) / 2

end DeviceTypes
