/-!
# Padding

Texts are made at least so many characters long by putting one character in front of them or
behind them as often as it takes.
-/

namespace MipsAssembly

/-- Put `fill` in front until there are `width` characters. -/
def padLeft (width : Nat) (fill : Char) (cs : List Char) : List Char :=
  List.replicate (width - cs.length) fill ++ cs

/-- Put `fill` behind until there are `width` characters. -/
def padRight (width : Nat) (fill : Char) (cs : List Char) : List Char :=
  cs ++ List.replicate (width - cs.length) fill

end MipsAssembly
