/-!
# Powers of natural numbers

Where this scope is open, a power of natural numbers is the core library's one,
whatever else is imported.
-/

namespace Rulebook
namespace CorePower

attribute [scoped instance (high)] instPowNat

end CorePower
end Rulebook
