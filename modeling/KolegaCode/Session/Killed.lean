import KolegaCode.Session.Crash
import KolegaCode.Session.Interrupted

/-!
# Session — a process that is killed

Whatever bytes of its log are left of a session, a new recorder recovers the turn it was in.
-/

namespace KolegaCode.Session

open List
open Json (Dict get?)

end KolegaCode.Session
