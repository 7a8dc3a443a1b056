import Spellcraft.Browser
import Spellcraft.Proofs.Casting.Confinement
import Spellcraft.Proofs.Casting.Limits
import Spellcraft.Proofs.Language.Nesting
import Spellcraft.Proofs.Playback.Gathering
import Spellcraft.Proofs.Playback.Isolation
import Spellcraft.Proofs.Playback.Notices
import Spellcraft.Proofs.Playback.Pace
import Spellcraft.Proofs.Playback.Success
import Spellcraft.Proofs.Language.Shape
import Spellcraft.Proofs.Language.Reading
import Spellcraft.Proofs.Language.ReadsExpr
import Spellcraft.Proofs.Language.ReadsStmt
import Spellcraft.Proofs.Language.Ahead
import Spellcraft.Proofs.Language.Opens
import Spellcraft.Proofs.Language.ReadBackExpr
import Spellcraft.Proofs.Language.ReadBackStmt
import Spellcraft.Proofs.Casting.Discipline
import Spellcraft.Proofs.Casting.DisciplinedRuns
import Spellcraft.Proofs.Casting.Hoisting
import Spellcraft.Proofs.Casting.Jumps
import Spellcraft.Proofs.Casting.Widening
import Spellcraft.Proofs.Casting.Sight
import Spellcraft.Proofs.Casting.Texts
import Spellcraft.Proofs.Casting.Steering
import Spellcraft.Proofs.Language.Spelling
import Spellcraft.Proofs.Spell.Concepts
import Spellcraft.Proofs.Casting.Balance
import Spellcraft.Proofs.Casting.Functions
import Spellcraft.Proofs.Language.Progress
import Spellcraft.Proofs.Casting.Culprit
import Spellcraft.Proofs.Spell.Complaints
import Spellcraft.Proofs.Language.Closing
import Spellcraft.Proofs.Maze.Geometry
import Spellcraft.Proofs.Maze.Codes
import Spellcraft.Proofs.Spell.RoundTrip
import Spellcraft.Proofs.Spell.Merging
import Spellcraft.Proofs.Spell.Navigation
import Spellcraft.Proofs.Casting.Commands
import Spellcraft.Proofs.Playback.Streaming
import Spellcraft.Proofs.Casting.Grounding
