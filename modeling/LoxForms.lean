import LoxForms.Automaton
import LoxForms.Automaton.Stack
import LoxForms.Automaton.Table
import LoxForms.Double
import LoxForms.Double.Layout
import LoxForms.Double.Numeral
import LoxForms.Double.Shortest
import LoxForms.Dump
import LoxForms.Form
import LoxForms.Form.Fault
import LoxForms.Grammar
import LoxForms.Lexeme
import LoxForms.Lexeme.Reading
import LoxForms.Program
import LoxForms.Program.Building
import LoxForms.Proofs.Automaton.Admitting
import LoxForms.Proofs.Automaton.Chains
import LoxForms.Proofs.Automaton.Completeness
import LoxForms.Proofs.Automaton.Edges
import LoxForms.Proofs.Automaton.Items
import LoxForms.Proofs.Automaton.Landing
import LoxForms.Proofs.Automaton.Reachable
import LoxForms.Proofs.Automaton.Settling
import LoxForms.Proofs.Automaton.Soundness
import LoxForms.Proofs.Automaton.Viable
import LoxForms.Proofs.Building.Branches
import LoxForms.Proofs.Building.Composing
import LoxForms.Proofs.Building.Concatenation
import LoxForms.Proofs.Building.Extracting
import LoxForms.Proofs.Building.LeftFold
import LoxForms.Proofs.Building.Lines
import LoxForms.Proofs.Building.Lookups
import LoxForms.Proofs.Building.Loops
import LoxForms.Proofs.Building.Lossless
import LoxForms.Proofs.Building.Made
import LoxForms.Proofs.Building.MethodOrder
import LoxForms.Proofs.Building.Methods
import LoxForms.Proofs.Building.Names
import LoxForms.Proofs.Building.Origins
import LoxForms.Proofs.Building.Parts
import LoxForms.Proofs.Building.Passing
import LoxForms.Proofs.Building.Places
import LoxForms.Proofs.Building.Precedence
import LoxForms.Proofs.Building.Rows
import LoxForms.Proofs.Building.Rules
import LoxForms.Proofs.Building.Spelled
import LoxForms.Proofs.Building.Strings
import LoxForms.Proofs.Building.Total
import LoxForms.Proofs.Building.Violations
import LoxForms.Proofs.Building.WellNested
import LoxForms.Proofs.Double.Numerals
import LoxForms.Proofs.Double.Printed
import LoxForms.Proofs.Double.Ranks
import LoxForms.Proofs.Form.FirstFault
import LoxForms.Proofs.Form.Glyphs
import LoxForms.Proofs.Form.Identity
import LoxForms.Proofs.Form.Inspection
import LoxForms.Proofs.Form.Linewise
import LoxForms.Proofs.Form.Margins
import LoxForms.Proofs.Form.Printable
import LoxForms.Proofs.Form.Readback
import LoxForms.Proofs.Form.Rendered
import LoxForms.Proofs.Form.Report
import LoxForms.Proofs.Form.Safety
import LoxForms.Proofs.Form.Splicing
import LoxForms.Proofs.Form.Tracing
import LoxForms.Proofs.Grammar.Declarations
import LoxForms.Proofs.Grammar.Derivation
import LoxForms.Proofs.Grammar.NearestElse
import LoxForms.Proofs.Grammar.Reading
import LoxForms.Proofs.Grammar.Sentences
import LoxForms.Proofs.Grammar.Unfolding
import LoxForms.Proofs.Grammar.Written
import LoxForms.Proofs.Lexeme.Continued
import LoxForms.Proofs.Lexeme.Searching
import LoxForms.Proofs.Lexeme.Spelling
import LoxForms.Proofs.Lexeme.Words
import LoxForms.Proofs.Parsing.Cutting
import LoxForms.Proofs.Parsing.Derived
import LoxForms.Proofs.Parsing.Expected
import LoxForms.Proofs.Parsing.Finding
import LoxForms.Proofs.Parsing.Halting
import LoxForms.Proofs.Parsing.Layout
import LoxForms.Proofs.Parsing.Lining
import LoxForms.Proofs.Parsing.Located
import LoxForms.Proofs.Parsing.Operands
import LoxForms.Proofs.Parsing.Reserved
import LoxForms.Proofs.Parsing.Resuming
import LoxForms.Proofs.Parsing.Scanning
import LoxForms.Proofs.Parsing.Severed
import LoxForms.Proofs.Parsing.Spaced
import LoxForms.Proofs.Parsing.Tiling
import LoxForms.Proofs.Writing.Expressions
import LoxForms.Proofs.Writing.Normal
import LoxForms.Proofs.Writing.Regaining
import LoxForms.Proofs.Writing.RoundTrip
import LoxForms.Proofs.Writing.Statements
import LoxForms.Sample
import LoxForms.SyntaxError
import LoxForms.SyntaxError.Message
import LoxForms.Text.Digit
import LoxForms.Text.Quoted
import LoxForms.Text.Unprintable
import LoxForms.TokenKind
import LoxForms.Tree
import LoxForms.Tree.Reading
import LoxForms.Value
import LoxForms.Value.Description
import LoxForms.Value.Equality
import LoxForms.Writer
