/-! Text set in columns: a value is padded to a least width and never cut. -/

namespace OcCompiler.Text

def padStart (fill : Char) (width : Nat) (text : String) : String :=
  String.ofList (List.replicate (width - text.length) fill) ++ text

def padEnd (fill : Char) (width : Nat) (text : String) : String :=
  text ++ String.ofList (List.replicate (width - text.length) fill)

def repeated (count : Nat) (text : String) : String :=
  String.join (List.replicate count text)

end OcCompiler.Text
