import Mathlib.Algebra.Group.Int.Defs
import Mathlib.Algebra.Group.Nat.Defs

/-!
# `Libs.Error` — `libs/error.h`

The kernel error codes the modelled functions return, as the positive numbers of the header; a function
that fails returns the negated code.
-/

namespace Ucore

def eUnspecified : Int := 1
def eBadProc : Int := 2
def eInval : Int := 3
def eNoMem : Int := 4
def eNoFreeProc : Int := 5
def eFault : Int := 6
def eInvalElf : Int := 8
def eKilled : Int := 9
def ePanic : Int := 10
def eNoDev : Int := 13
def eNaDev : Int := 14
def eBusy : Int := 15
def eNoEnt : Int := 16
def eIsDir : Int := 17
def eNotDir : Int := 18
def eXdev : Int := 19
def eUnimp : Int := 20
def eSeek : Int := 21
def eMaxOpen : Int := 22
def eExists : Int := 23
def eNotEmpty : Int := 24

/-- `MAXERROR` -/
def maxError : Int := 24

end Ucore
