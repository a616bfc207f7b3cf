import Mathlib.Logic.Function.Basic

/-!
# Return codes

The negative `errno` values the modelled functions return.
-/

namespace UbDkms

inductive Errno where
  | einval | enomem | erange | efault | enxio | eexist | enoent
  deriving DecidableEq, Repr

abbrev Ret := Option Errno

end UbDkms
