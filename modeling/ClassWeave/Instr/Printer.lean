import ClassWeave.Decimal.Text
import ClassWeave.Instr.Basic
import ClassWeave.Text.Quoted

/-!
# Instructions as text

One line for each entry of a list: the name of the instruction and its operands.
-/

namespace ClassWeave

def MemberRef.text (m : MemberRef) : String := m.owner ++ "." ++ m.name ++ ":" ++ m.descriptor

def Handle.text (h : Handle) : String := h.kind.name ++ " " ++ h.member.text

def Loadable.text : Loadable → String
  | int n => toString n.toInt
  | float bits => Decimal.Style.plain.float .single bits.toNat ++ "f"
  | long n => toString n.toInt ++ "L"
  | double bits => Decimal.Style.plain.float .double bits.toNat ++ "d"
  | string s => Quoted.encode s
  | cls name => name ++ ".class"
  | methodType descriptor => descriptor
  | handle h => h.text
  | pooled i => "#" ++ toString i.toNat

namespace Instr

variable {τ : Type} (target : τ → String)

/-- The text of an instruction, given that of its targets. -/
def text : Instr τ → String
  | plain op => Opcode.mnemonic op
  | int op n => Opcode.mnemonic op ++ " " ++ toString n.toInt
  | type op cls => Opcode.mnemonic op ++ " " ++ cls
  | var op i => Opcode.mnemonic op ++ " " ++ toString i.toNat
  | increment i n => "iinc " ++ toString i.toNat ++ " " ++ toString n.toInt
  | field op m => Opcode.mnemonic op ++ " " ++ m.text
  | method op m _ => Opcode.mnemonic op ++ " " ++ m.text
  | load c => "ldc " ++ c.text
  | jump op t => Opcode.mnemonic op ++ " " ++ target t
  | tableSwitch low high d ts =>
    "tableswitch " ++ toString low.toInt ++ "..=" ++ toString high.toInt ++ " " ++
      String.join (ts.map fun t => target t ++ " ") ++ "default " ++ target d
  | lookupSwitch d ps =>
    "lookupswitch " ++
      String.join (ps.map fun (key, t) => toString key.toInt ++ ": " ++ target t ++ " ") ++
      "default " ++ target d
  | newMultiArray cls n => "multianewarray " ++ cls ++ " " ++ toString n.toNat
  | invokeDynamic site =>
    "invokedynamic " ++ site.name ++ site.descriptor ++ " " ++ site.bootstrap.text

end Instr

/-- The text of an entry. -/
def Node.text : Node → String
  | instr i => i.text Label.text
  | label l => l.text ++ ":"
  | line n => "line " ++ toString n.toNat

end ClassWeave
