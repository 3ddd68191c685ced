/-!
# Quoted text

Text stands between two quotes, and a quote inside it is written twice. Names stand bare when they
look like identifiers and in double quotes otherwise.
-/

namespace QueryMachine.Text

def doubled (quote : Char) : List Char → List Char
  | [] => []
  | c :: rest => if c = quote then quote :: quote :: doubled quote rest else c :: doubled quote rest

def quoted (quote : Char) (s : String) : String :=
  String.ofList (quote :: doubled quote s.toList ++ [quote])

def singleQuoted (s : String) : String := quoted '\'' s

def isNameStart (c : Char) : Bool := c.isAlpha || c == '_'

def isNamePart (c : Char) : Bool := c.isAlphanum || c == '_'

def isBareName : List Char → Bool
  | [] => false
  | c :: rest => isNameStart c && rest.all isNamePart

def identifier (name : String) : String :=
  if isBareName name.toList then name else quoted '"' name

end QueryMachine.Text
