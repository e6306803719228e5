import Osisp.Lab1.Preorder

namespace Osisp.Lab1

section

variable {calls : Calls} {flags : Flags}

end

section OneFile

variable {start : Text}

end OneFile

end Osisp.Lab1
