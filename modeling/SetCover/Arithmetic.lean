/-!
# Arithmetic

Bounds of machine numbers are powers of two, and costs are sums. In every module these are the power
and the zero of the core library, also where another structure on numbers is imported, so that a
bound or a sum in a statement is the one of the definition it is about.
-/

namespace SetCover

attribute [instance (high)] instPowNat Zero.ofOfNat0
attribute [default_instance (high + 1)] instPowNat

end SetCover
