import TinyC.ParserState

/-!
# A source text as a source of tokens
-/

namespace TinyC

/-- The functions of the C library that the compiler hands its data to. -/
structure LibC where
  strtod : List Byte → BitVec 64
  /-- `%g`. -/
  formatG : BitVec 64 → String

structure SourceText where
  lib : LibC
  lexer : Lexer

/-- `%.*s` of a token. -/
def tokenText (src : List Byte) (t : Token) : String :=
  String.ofList (((src.drop t.start).take t.len.toNat).map fun b => Char.ofNat b.toNat)

/-- `token_describe`; `desc_buf` has room for 255 characters. -/
def tokenDescribe (lib : LibC) (src : List Byte) (t : Token) : String :=
  let text :=
    match t.kind with
    | .intLit => "INT_LIT(" ++ toString t.intVal.toNat ++ ")"
    | .floatLit => "FLOAT_LIT(" ++ lib.formatG t.floatVal ++ ")"
    | .ident | .strLit | .charLit => tokenKindName t.kind ++ "('" ++ tokenText src t ++ "')"
    | k => tokenKindName k
  String.ofList (text.toList.take 255)

instance : TokenSource SourceText where
  peek s := ((lexerPeek s.lib.strtod s.lexer).1,
    { s with lexer := (lexerPeek s.lib.strtod s.lexer).2 })
  next s := ((lexerNext s.lib.strtod s.lexer).1,
    { s with lexer := (lexerNext s.lib.strtod s.lexer).2 })
  strings s := s.lexer.strings
  describe s := tokenDescribe s.lib s.lexer.src
  emit s d := { s with lexer := { s.lexer with diags := s.lexer.diags ++ [d] } }

def sourceText (lib : LibC) (src : List Byte) : SourceText := ⟨lib, lexerInit src []⟩

end TinyC
