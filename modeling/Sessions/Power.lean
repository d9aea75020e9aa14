/-!
# Powers

A power such as `2 ^ 63` is the one of the core library in every module, also where another
instance is in scope. So the bounds of the formats are one term throughout, and are computed.
-/

attribute [default_instance 20000, instance (2000)] instPowNat
