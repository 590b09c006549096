import JailFs.LineSession
import JailFs.Stdio

/-!
# The file of the history

The shell saves the history after every line that it accepts and loads it when it starts.
-/

namespace JailFs

open Stdio

variable {h h' : LineHistory} {line : CString} {lines log : List CString}

end JailFs
