import Blockwork.CommandLine.Folder
import Blockwork.Main
import Blockwork.Proofs.Block.Exchange
import Blockwork.Proofs.Block.Nesting
import Blockwork.Proofs.Block.Links
import Blockwork.Proofs.Block.Replay
import Blockwork.Proofs.Board.Input
import Blockwork.Proofs.Board.PutBack
import Blockwork.Proofs.Board.WellTyped
import Blockwork.Proofs.Expression.Strata
import Blockwork.Scene.Record
import Blockwork.Proofs.Block.Standalone
import Blockwork.Proofs.Block.Hit
import Blockwork.Proofs.Board.Failure
import Blockwork.Proofs.Block.Grouping
import Blockwork.Proofs.Board.Inert
import Blockwork.Proofs.Board.Preview
import Blockwork.Proofs.Board.Drawn
import Blockwork.Proofs.Board.PulledOut
import Blockwork.Proofs.Board.Source
import Blockwork.Proofs.Block.Ring
import Blockwork.Proofs.Board.Lit
import Blockwork.Proofs.Plane.Rounded
import Blockwork.Proofs.Block.Outline
import Blockwork.Proofs.Block.Taken
import Blockwork.Proofs.Block.Twin
import Blockwork.Proofs.Scene.Drawing
import Blockwork.Proofs.Board.Steady
import Blockwork.Proofs.Expression.Cursor
import Blockwork.Proofs.Expression.Landing
import Blockwork.Proofs.Block.Glyph
import Blockwork.Proofs.Block.Unsupported
import Blockwork.Proofs.Block.CheckArea
import Blockwork.Proofs.Board.Fresh
import Blockwork.Proofs.Board.Frames
import Blockwork.Proofs.Scene.Surface
import Blockwork.Proofs.Scene.Document
import Blockwork.Proofs.Expression.Bytes
import Blockwork.Proofs.Expression.Spacing
import Blockwork.Proofs.Block.Listing
import Blockwork.Proofs.Block.FirstPass
import Blockwork.Proofs.Board.Handles
import Blockwork.Proofs.Board.Origins
import Blockwork.Proofs.Plane.Finite
import Blockwork.Proofs.Scene.Parts
