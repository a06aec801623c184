import BranchPaint.Main
import BranchPaint.Proofs.Branch.Arguments
import BranchPaint.Proofs.Branch.Missing
import BranchPaint.Proofs.Grammar.Extent
import BranchPaint.Proofs.Inline.Capture
import BranchPaint.Proofs.Inline.Eliminated
import BranchPaint.Proofs.Inline.Idempotent
import BranchPaint.Proofs.Inline.Isolation
import BranchPaint.Proofs.Inline.Lookup
import BranchPaint.Proofs.Inline.Loop
import BranchPaint.Proofs.Inline.Rebound
import BranchPaint.Proofs.Inline.Stores
import BranchPaint.Proofs.Markup.Highlight
import BranchPaint.Proofs.Markup.Lossless
import BranchPaint.Proofs.Peg.Quote
import BranchPaint.Proofs.Peg.Stages
import BranchPaint.Proofs.Report.Canonical
import BranchPaint.Proofs.Report.Indentation
import BranchPaint.Proofs.Report.Truth
import BranchPaint.Proofs.Settings.Layers
import BranchPaint.Proofs.Value.Equality
import BranchPaint.Proofs.Value.Readings
