import LinuxRouter.Model.Console

/-!
# Model — Udp

`udp_thread`, the read-only queries without authentication: its loop, and what a query leaves in
`out`, which is declared once and never cleared.

A round has the state as the router's other threads have left it.

`out` is a function from places to bytes, given to each query as the last one has left it, so that
what a query does not write is what was there before.

A datagram's bytes are taken up to the first NUL and split into words, of which the first is the
query; an unknown one is answered with an error text.  The answer is the text in `out` as far as
`strlen` and the size of the datagram allow.  `Commands.Udp` proves that no answer depends on what
`out` held before.
-/

namespace LinuxRouter

open Text (lit cstr)

/-- `sizeof(out)`. -/
def udpSize : ℕ := 1472

end LinuxRouter
