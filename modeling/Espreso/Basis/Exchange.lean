import Espreso.Basis.Communication
import Espreso.Basis.Distribution

/-!
# Exchange with neighbours

A rank has a buffer for each of its neighbours, and receives a buffer from each of them.

* `exchangeUnknownSize` — `Communication::exchangeUnknownSize`.
-/

namespace Espreso

variable {T : Type}

/-- **`Communication::exchangeUnknownSize`** on `size` ranks. `sBuffer r n` is what rank `r` sends
to its neighbour at position `n`, and entries are `multiplier` units of the MPI type. A received
message is stored at the position of its source. A buffer that is too large ends the computation. -/
def exchangeUnknownSize (size multiplier : ℕ) (neighbours : ℕ → List ℕ) (sBuffer : ℕ → ℕ → List T) :
    Option (ℕ → ℕ → List T) :=
  if ∀ r < size, ∀ n < (neighbours r).length, multiplier * (sBuffer r n).length ≤ limit then
    some fun r n =>
      let source := (neighbours r).getD n 0
      sBuffer source (lowerBound (neighbours source) r)
  else none

end Espreso
