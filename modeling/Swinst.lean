import Swinst.TaskList.Task
import Swinst.TaskList.Machine
import Swinst.TaskList.Steps
import Swinst.TaskList.Runs
import Swinst.TaskList.StartOrder
import Swinst.Data.PyText
import Swinst.Loader
import Swinst.BootIni.Rewrite
import Swinst.BootIni.Entry
import Swinst.TaskList.Program
import Swinst.TaskList.ProgramRuns
import Swinst.Bootloader.Drives
import Swinst.Bootloader.Bcd
import Swinst.Media.Distro
import Swinst.Media.CacheRuns
import Swinst.TaskList.ProgramWorlds
import Swinst.Retrieval.Metalink
import Swinst.Retrieval.Iso
import Swinst.Retrieval.Kernel
import Swinst.Retrieval.Frames
import Swinst.Retrieval.Authentic
import Swinst.Retrieval.Medium
import Swinst.Retrieval.Fallback
import Swinst.Data.Substitution
import Swinst.Templates.Placeholders
import Swinst.Data.PyStr
import Swinst.Templates.Password
import Swinst.Templates.Preseed
import Swinst.Templates.PreseedAscii
import Swinst.Previous.Uninstaller
import Swinst.Previous.Uninstalled
import Swinst.Templates.Grub
import Swinst.Previous.Health
import Swinst.TaskList.Moves
import Swinst.TaskList.NoWorkLost
import Swinst.TaskList.Finals
import Swinst.TaskList.RootError
import Swinst.Data.TreeSum
import Swinst.TaskList.Progress
import Swinst.TaskList.ProgressRuns
import Swinst.Data.Argv
import Swinst.Launcher.CommandLine
import Swinst.Data.Scan
import Swinst.Launcher.Archive
import Swinst.Disks.SizeList
import Swinst.Disks.Recipe
import Swinst.Disks.Installation
import Swinst.Previous.Backup
import Swinst.Previous.BackupRuns
import Swinst.Disks.ZeroFile
import Swinst.Disks.VirtualDisk
import Swinst.Disks.FatSizes
import Swinst.Frontend.InstallationPage
import Swinst.Frontend.SizeChoice
import Swinst.Frontend.DriveChoice
import Swinst.BootIni.Progress
import Swinst.BootIni.Undo
import Swinst.BootIni.Header
import Swinst.BootIni.Again
import Swinst.Data.Regex
import Swinst.Media.DiskInfo
import Swinst.Data.Unicode
import Swinst.Data.Xml
import Swinst.Metalink.Handler
import Swinst.Metalink.Files
import Swinst.Metalink.Run
import Swinst.Media.Md5sums
import Swinst.Retrieval.RememberedMd5
import Swinst.Data.Blocks
import Swinst.Retrieval.FileMd5
import Swinst.Retrieval.CopyFile
import Swinst.Retrieval.CopyIso
import Swinst.Retrieval.DistroArch
import Swinst.Media.Listing
import Swinst.Metalink.CharacterData
import Swinst.Metalink.Pieces
import Swinst.Metalink.PieceHashes
import Swinst.Launcher.SevenZip
import Swinst.Launcher.Unpack
import Swinst.Launcher.UnpackResult
import Swinst.Data.Paths
import Swinst.Launcher.FileSystem
import Swinst.Launcher.DeleteDirectory
import Swinst.Previous.CreateUninstaller
import Swinst.Templates.PasswordCode
import Swinst.Media.Isolist
import Swinst.Data.PyHeap
import Swinst.Frontend.EventHandlers
import Swinst.Data.FlatStore
import Swinst.Data.Placement
import Swinst.Data.Tiling
import Swinst.Data.Runs
import Swinst.Data.Segments
import Swinst.Data.Random
import Swinst.Data.Loops
import Swinst.BitTorrent.StorageWrapper
import Swinst.BitTorrent.Arrangement
import Swinst.BitTorrent.Requests
import Swinst.BitTorrent.StorageRuns
import Swinst.BitTorrent.StorageInit
import Swinst.BitTorrent.Completion
import Swinst.BitTorrent.TrueBlocks
import Swinst.BitTorrent.Reliable
import Swinst.BitTorrent.Storage
import Swinst.BitTorrent.StorageFiles
import Swinst.BitTorrent.StorageOpen
import Swinst.BitTorrent.Download
import Swinst.BitTorrent.PiecePicker
import Swinst.BitTorrent.Bitfield
import Swinst.BitTorrent.Downloader
import Swinst.BitTorrent.Outstanding
import Swinst.BitTorrent.Handlers
import Swinst.BitTorrent.GotPiece
import Swinst.BitTorrent.Swarm
