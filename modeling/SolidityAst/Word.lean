/-!
The range of 64-bit integers.
-/
namespace SolidityAst.Word

abbrev size : Nat := 18446744073709551616

/-- Half the number of 64-bit words: the first number that is too large for a signed one. -/
abbrev half : Nat := 9223372036854775808

abbrev least : Int := -9223372036854775808

abbrev greatest : Int := 9223372036854775807

end SolidityAst.Word
