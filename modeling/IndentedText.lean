import IndentedText.Code.Layout
import IndentedText.Code.Session
import IndentedText.Document.Lines
import IndentedText.Proofs.Conservation
import IndentedText.Proofs.Insertion
import IndentedText.Script
import IndentedText.Proofs.Interleaving
import IndentedText.Proofs.Laying
import IndentedText.Proofs.Drafting
import IndentedText.Proofs.Layout
import IndentedText.Proofs.SourceFile
import IndentedText.Proofs.Refusal
import IndentedText.Proofs.Blocks
import IndentedText.Proofs.Forest
import IndentedText.Proofs.Depth
import IndentedText.Proofs.Restoration
import IndentedText.Proofs.Queries
import IndentedText.Proofs.Hidden
import IndentedText.Proofs.IfEmpty
import IndentedText.Proofs.IndentUnit
import IndentedText.Code.Draft
import IndentedText.Proofs.Interruption
import IndentedText.Code.Skeleton
import IndentedText.Proofs.Nesting
import IndentedText.Proofs.Legibility
import IndentedText.Proofs.Sectionwise
import IndentedText.Proofs.Joining
import IndentedText.Text.Newline
import IndentedText.Proofs.Normalization
import IndentedText.Proofs.Widths
import IndentedText.Proofs.Alignment
import IndentedText.Proofs.Fields
import IndentedText.Code.Words
import IndentedText.Proofs.Imports
import IndentedText.Proofs.AddedImports
import IndentedText.Text.Trimmed
import IndentedText.Proofs.Documentation
import IndentedText.Proofs.Signatures
