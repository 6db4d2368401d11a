import Axan.Base.Ascend
import Axan.Base.Base64
import Axan.Base.CString
import Axan.Base.Contiguous
import Axan.Base.Forest
import Axan.Base.Graft
import Axan.Base.Json
import Axan.Base.Lru
import Axan.Base.Outline
import Axan.Base.ParentsFirst
import Axan.Base.Places
import Axan.Base.Relocate
import Axan.Base.Scope
import Axan.Base.Settings
import Axan.Base.Template
import Axan.Base.Tokens
import Axan.Base.TomlDocument
import Axan.Base.TomlFile
import Axan.Base.TomlTables
import Axan.Base.Traversal
import Axan.Base.Utf16
import Axan.Base.Utf8
import Axan.EntryTree.Closure
import Axan.EntryTree.Delete
import Axan.EntryTree.DragCorrect
import Axan.EntryTree.DragTotal
import Axan.EntryTree.Editor
import Axan.EntryTree.ImportedDrag
import Axan.EntryTree.PreOrder
import Axan.EntryTree.Steps
import Axan.LaunchEntryWire.Export
import Axan.LaunchEntryWire.HoistLists
import Axan.LaunchEntryWire.HoistRule
import Axan.LaunchEntryWire.Icons
import Axan.LaunchEntryWire.Import
import Axan.LaunchEntryWire.Quote
import Axan.LaunchEntryWire.SettingsExport
import Axan.LaunchEntryWire.SettingsJson
import Axan.LinuxSidebar.Capture
import Axan.LinuxSidebar.Closing
import Axan.LinuxSidebar.CollapsedColumn
import Axan.LinuxSidebar.DropPlacement
import Axan.LinuxSidebar.PreOrder
import Axan.LinuxSidebar.Sidebar
import Axan.LinuxSidebar.Startup
import Axan.LinuxSidebar.StartupTree
import Axan.LinuxStartup.Consistency
import Axan.LinuxStartup.Editor
import Axan.LinuxStartup.Forest
import Axan.LinuxStartup.Keeps
import Axan.LinuxStartup.Load
import Axan.LinuxStartup.TextEdit
import Axan.LinuxStartup.TreeEdits
import Axan.LinuxToml.Atomic
import Axan.LinuxToml.AutoExport
import Axan.LinuxToml.Entries
import Axan.LinuxToml.Export
import Axan.LinuxToml.IconRegistry
import Axan.LinuxToml.Import
import Axan.LinuxToml.ImportAll
import Axan.LinuxToml.ProfilesList
import Axan.LinuxToml.Reapply
import Axan.LinuxToml.Schema
import Axan.Platforms.StartupTree
import Axan.ProgramStatus.Adapter
import Axan.ProgramStatus.Eviction
import Axan.ProgramStatus.Sender
import Axan.ProgramStatus.Snapshot
import Axan.ProgramStatus.Store
import Axan.ProgramStatus.Subtree
import Axan.ProgramStatus.TextFields
import Axan.RowLabel.Expanders
import Axan.RowLabel.FileLine
import Axan.RowLabel.GitWalk
import Axan.RowLabel.Initials
import Axan.SessionState.Acknowledged
import Axan.SessionState.Derive
import Axan.SessionState.Determined
import Axan.SessionState.Preview
import Axan.SessionState.Row
import Axan.SessionState.Seen
import Axan.SessionState.Tab
import Axan.SessionTree.Capture
import Axan.SessionTree.Handlers
import Axan.SessionTree.IdleCollapse
import Axan.SessionTree.Live
import Axan.SessionTree.Load
import Axan.SessionTree.Realize
import Axan.SessionTree.Reconcile
import Axan.SessionTree.Reload
import Axan.SessionTree.Runs
import Axan.SessionTree.SectionBadge
import Axan.SessionTree.Sections
import Axan.SessionTree.ShellIntegration
import Axan.SessionTree.Spawn
import Axan.SessionTree.View
