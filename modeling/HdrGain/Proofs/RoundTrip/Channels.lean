import HdrGain.Proofs.RoundTrip.Negative

namespace HdrGain

open Rounding

namespace Gain

section Powers

variable [Elementary Float32] (library : LightPowers) {light gain logRatio : Float32} {number : ℚ}

include library

section Number

variable (stands : numberOf? (gain * logRatio) = some number)

include stands

end Number

end Powers

section Bounded

variable [Elementary Float32] (library : BoundedPowers) {gain : Float32} {config : Config Float32}
  (accepted : config.validate = .ok ())

include library accepted

end Bounded

end Gain

end HdrGain
