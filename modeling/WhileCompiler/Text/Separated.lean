/-!
# Lists in text

Arguments, parameters and operands are listed with a comma and a space between neighbours.
-/

namespace WhileCompiler.Text

def commaSeparated (items : List String) : String :=
  ", ".intercalate items

end WhileCompiler.Text
