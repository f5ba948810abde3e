/-! The error numbers of `errno.h` that the modelled calls return, negated. -/

namespace Cervus.Errno

def enoent : Int := 2
def eintr : Int := 4
def e2big : Int := 7
def ebadf : Int := 9
def eagain : Int := 11
def enomem : Int := 12
def eacces : Int := 13
def efault : Int := 14
def eexist : Int := 17
def enotdir : Int := 20
def einval : Int := 22
def emfile : Int := 24
def efbig : Int := 27
def enospc : Int := 28
def epipe : Int := 32
def erange : Int := 34
def enametoolong : Int := 36
def enolck : Int := 37
def eloop : Int := 40
def enomsg : Int := 42
def eidrm : Int := 43
def econnreset : Int := 104
def etimedout : Int := 110
def econnrefused : Int := 111

end Cervus.Errno
