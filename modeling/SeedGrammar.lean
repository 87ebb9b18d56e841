import SeedGrammar.Main
import SeedGrammar.Script
import SeedGrammar.Walk.Trail
import SeedGrammar.Proofs.Random.Draws
import SeedGrammar.Proofs.Random.Orders
import SeedGrammar.Proofs.Program.Rejection
import SeedGrammar.Proofs.Program.Concatenation
import SeedGrammar.Proofs.Grammar.Contracts
import SeedGrammar.Proofs.Grammar.Scopes
import SeedGrammar.Proofs.Grammar.Calls
import SeedGrammar.Proofs.Grammar.Rewiring
import SeedGrammar.Proofs.Grammar.Extent
import SeedGrammar.Proofs.Grammar.Refusals
import SeedGrammar.Proofs.Grammar.Directives
import SeedGrammar.Proofs.Generate.Agreement
import SeedGrammar.Proofs.Generate.Imports
import SeedGrammar.Proofs.Generate.Blocks
import SeedGrammar.Proofs.Generate.Pieces
import SeedGrammar.Proofs.Generate.Reuse
import SeedGrammar.Proofs.Generate.Words
import SeedGrammar.Proofs.Script.Reached
import SeedGrammar.Proofs.Script.Later
import SeedGrammar.Proofs.Script.Choices
import SeedGrammar.Proofs.Repl.Kept
